import Comparability.Declaration.Basic
import Comparability.Diagnostic
import Comparability.Matcher
import Comparability.Session
import Comparability.TypeExpr.Resolution

/-!
# Classifying a declaration

Every annotation of every member is resolved. A member with a malformed annotation is blocked: it
gets no matcher forms, and a warning on its first malformed annotation after one error for each of
them. The diagnostics are in source coordinates and in order.
-/

namespace Comparability.Declaration

open Config (Options)
open Matcher (Slot)
open TypeExpr (Resolution resolve)

/-- An annotation with what it resolves to, under the name of its parameter or as the return type.
-/
structure ResolvedType where
  label : String
  written : WrittenType
  resolution : Resolution
  deriving Repr

namespace ResolvedType

def returnLabel : String :=
  "return"

def ofWritten (classify : Classifier) (label : String) (written : WrittenType) : ResolvedType :=
  ⟨label, written, resolve classify written.text⟩

def isMalformed (a : ResolvedType) : Bool :=
  !a.resolution.isOk

/-- The diagnostics of the annotation, in the coordinates of the source. -/
def diagnostics (a : ResolvedType) : List Diagnostic :=
  a.resolution.diagnostics.map fun d => d.moved a.written.span.start

/-- The label with the capability of a well-formed annotation. -/
def parameter? (a : ResolvedType) : Option (String × Capability) :=
  a.resolution.capability?.map fun capability => (a.label, capability)

end ResolvedType

/-- A member with what its annotations resolve to and the matcher forms planned for it. -/
structure MemberClass where
  member : Member
  parameters : List ResolvedType
  returnType : Option ResolvedType
  sequences : List (List Slot)
  deriving Repr

namespace MemberClass

/-- The parameters, and after them the return type. -/
def annotations (m : MemberClass) : List ResolvedType :=
  m.parameters ++ m.returnType.toList

/-- Some annotation is malformed. -/
def blocked (m : MemberClass) : Bool :=
  m.annotations.any ResolvedType.isMalformed

/-- The matcher forms of a function, which need the capability of each parameter. -/
def plan (kind : MemberKind) (parameters : List ResolvedType) : List (List Slot) :=
  match kind, parameters.mapM ResolvedType.parameter? with
  | .function, some capabilities => Matcher.sequences capabilities
  | _, _ => []

def ofMember (classify : Classifier) (member : Member) : MemberClass :=
  let parameters := member.parameters.map fun p => .ofWritten classify p.name p.type
  let returnType := member.returnType.map (.ofWritten classify ResolvedType.returnLabel)
  let unplanned : MemberClass := ⟨member, parameters, returnType, []⟩
  if unplanned.blocked then unplanned
  else { unplanned with sequences := plan member.kind parameters }

/-- The warning that nothing was planned for a member, on its first malformed annotation. -/
def blockedDiagnostic (m : MemberClass) (first : ResolvedType) : Diagnostic :=
  DiagnosticKind.blockedMember.report
    ("Member `" ++ m.member.name ++ "` has a malformed type annotation.") first.written.span

/-- The errors of a member's annotations, and after them the warning. -/
def diagnostics (m : MemberClass) : List Diagnostic :=
  m.annotations.flatMap ResolvedType.diagnostics ++
    ((m.annotations.find? ResolvedType.isMalformed).map m.blockedDiagnostic).toList

end MemberClass

/-- A declaration with its classified members. -/
structure Classification where
  declaration : Declaration
  members : List MemberClass
  diagnostics : List Diagnostic
  deriving Repr

/-- Both a classifier and options were given. -/
inductive ClassifyFault where
  | classifierAndOptions
  deriving DecidableEq, Repr

def ClassifyFault.message : ClassifyFault → String
  | classifierAndOptions => "Pass either classifier or options, not both"

namespace Classification

def ofClassifier (declaration : Declaration) (classify : Classifier) : Classification :=
  let members := declaration.members.map (MemberClass.ofMember classify)
  ⟨declaration, members, Diagnostic.sort (Diagnostic.collect (members.map MemberClass.diagnostics))⟩

/-- Classify every member under a given classifier, or else under the one of the declaration's
associated types and the given options. -/
def ofDeclaration? (declaration : Declaration) (options : Option Options)
    (classifier : Option Classifier) : Except ClassifyFault Classification :=
  match options, classifier with
  | some _, some _ => .error .classifierAndOptions
  | none, some classify => .ok (ofClassifier declaration classify)
  | _, none =>
    .ok (ofClassifier declaration (classifierOf declaration.associatedTypes (options.getD {})))

def anyError (c : Classification) : Bool :=
  Diagnostic.anyError c.diagnostics

def blockedNames (c : Classification) : List String :=
  (c.members.filter MemberClass.blocked).map fun m => m.member.name

def indexOf? (c : Classification) (name : String) : Option Nat :=
  c.members.findIdx? fun m => m.member.name = name

def member? (c : Classification) (name : String) : Option MemberClass :=
  c.members.find? fun m => m.member.name = name

end Classification

end Comparability.Declaration
