import Comparability.Text.Span

/-!
# Faults of a type expression

The fourteen reasons for which a type expression is malformed, each with its wording. A `Fault` is a
reason together with the span that it is about.
-/

namespace Comparability.TypeExpr

open Text (Span)

/-- Why a type expression is malformed. -/
inductive Reason where
  | emptyExpression
  | unexpectedCharacter
  | separatorWithoutType
  | separatorNotAllowed
  | extraSeparator
  | emptyContainer
  | unbalancedCloser
  | mismatchedCloser
  | missingSeparator
  | missingDictionaryValue
  | unclosedContainer
  | trailingText
  | optionalWithoutType
  | unbalancedGeneric
  deriving DecidableEq, Repr

namespace Reason

def all : List Reason :=
  [emptyExpression, unexpectedCharacter, separatorWithoutType, separatorNotAllowed, extraSeparator,
    emptyContainer, unbalancedCloser, mismatchedCloser, missingSeparator, missingDictionaryValue,
    unclosedContainer, trailingText, optionalWithoutType, unbalancedGeneric]

def message : Reason → String
  | emptyExpression => "type expression is empty"
  | unexpectedCharacter => "unexpected character"
  | separatorWithoutType => "separator has no preceding type"
  | separatorNotAllowed => "separator is not allowed here"
  | extraSeparator => "dictionary has more than one separator"
  | emptyContainer => "container has no element type"
  | unbalancedCloser => "closing delimiter has no open container"
  | mismatchedCloser => "closing delimiter does not match its container"
  | missingSeparator => "expected a separator between types"
  | missingDictionaryValue => "dictionary is missing its value type"
  | unclosedContainer => "container is never closed"
  | trailingText => "unexpected type text after container"
  | optionalWithoutType => "optional marker has no type to wrap"
  | unbalancedGeneric => "generic argument list is never closed"

def code : Reason → String
  | emptyExpression => "EMPTY_EXPRESSION"
  | unexpectedCharacter => "UNEXPECTED_CHARACTER"
  | separatorWithoutType => "SEPARATOR_WITHOUT_TYPE"
  | separatorNotAllowed => "SEPARATOR_NOT_ALLOWED"
  | extraSeparator => "EXTRA_SEPARATOR"
  | emptyContainer => "EMPTY_CONTAINER"
  | unbalancedCloser => "UNBALANCED_CLOSER"
  | mismatchedCloser => "MISMATCHED_CLOSER"
  | missingSeparator => "MISSING_SEPARATOR"
  | missingDictionaryValue => "MISSING_DICTIONARY_VALUE"
  | unclosedContainer => "UNCLOSED_CONTAINER"
  | trailingText => "TRAILING_TEXT"
  | optionalWithoutType => "OPTIONAL_WITHOUT_TYPE"
  | unbalancedGeneric => "UNBALANCED_GENERIC"

end Reason

@[ext] structure Fault where
  reason : Reason
  span : Span
  deriving DecidableEq, Repr

end Comparability.TypeExpr
