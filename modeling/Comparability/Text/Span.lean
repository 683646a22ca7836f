/-!
# Spans

A span is a half-open stretch of a text, counted in characters. `Span.ofLength`, `cover` and `shift`
build spans that need no check.

* `ofOffsets?`, `ofSizes?`, `ofLength?` : the span that given numbers describe, if they do;
* `slice` : the characters of a text that a span covers, clamped to the text;
* `le`, `lt` : the order by start, then by stop.
-/

namespace Comparability.Text

/-- What is wrong with given offsets. -/
inductive OffsetFault where
  | negativeSize
  | negativePosition
  | reversed
  deriving DecidableEq, Repr

def OffsetFault.message : OffsetFault → String
  | .negativeSize => "TextSize cannot be negative"
  | .negativePosition => "TextRange positions cannot be negative"
  | .reversed => "TextRange invariant violated: start > end"

/-- A length or a position on its own, which must not be negative. -/
def offset? (n : Int) : Except OffsetFault Nat :=
  if n < 0 then .error .negativeSize else .ok n.toNat

theorem offset?_natCast (n : Nat) : offset? n = .ok n := by
  rw [offset?, if_neg (Int.not_lt.mpr (Int.natCast_nonneg n)), Int.toNat_natCast]

def describeOffset (n : Nat) : String :=
  "TextSize(" ++ toString n ++ ")"

/-- A half-open stretch `[start, stop)` of a text. -/
@[ext] structure Span where
  start : Nat
  stop : Nat
  start_le_stop : start ≤ stop := by omega
  deriving DecidableEq, Repr

namespace Span

/-- The stretch of `length` characters from `offset` on. -/
def ofLength (offset length : Nat) : Span :=
  ⟨offset, offset + length, Nat.le_add_right _ _⟩

def ofBounds? (start stop : Nat) : Except OffsetFault Span :=
  if h : start ≤ stop then .ok ⟨start, stop, h⟩ else .error .reversed

/-- The stretch between two given sizes, of which the first is checked first. -/
def ofSizes? (start stop : Int) : Except OffsetFault Span := do
  ofBounds? (← offset? start) (← offset? stop)

/-- The stretch of a given length from a given offset on; the offset is checked first. -/
def ofLength? (offset length : Int) : Except OffsetFault Span := do
  return ofLength (← offset? offset) (← offset? length)

/-- The stretch between two given numbers: a negative one is noticed before a wrong order. -/
def ofOffsets? (start stop : Int) : Except OffsetFault Span :=
  if start < 0 ∨ stop < 0 then .error .negativePosition else ofBounds? start.toNat stop.toNat

/-- The least span that holds both. -/
def cover (s t : Span) : Span :=
  ⟨min s.start t.start, max s.stop t.stop,
    Nat.le_trans (Nat.min_le_left _ _) (Nat.le_trans s.start_le_stop (Nat.le_max_left _ _))⟩

def shift (s : Span) (delta : Nat) : Span :=
  ⟨s.start + delta, s.stop + delta, Nat.add_le_add_right s.start_le_stop _⟩

def length (s : Span) : Nat :=
  s.stop - s.start

/-- The part of a text that the span covers. -/
def slice (s : Span) (source : String) : String :=
  String.ofList ((source.toList.drop s.start).take s.length)

def le (s t : Span) : Bool :=
  decide (s.start < t.start ∨ s.start = t.start ∧ s.stop ≤ t.stop)

def lt (s t : Span) : Bool :=
  decide (s.start < t.start ∨ s.start = t.start ∧ s.stop < t.stop)

def sort (spans : List Span) : List Span :=
  spans.mergeSort le

def describe (s : Span) : String :=
  "TextRange(" ++ toString s.start ++ ", " ++ toString s.stop ++ ")"

@[simp] theorem start_ofLength (o l : Nat) : (Span.ofLength o l).start = o := rfl

@[simp] theorem stop_ofLength (o l : Nat) : (Span.ofLength o l).stop = o + l := rfl

@[simp] theorem start_cover (s t : Span) : (s.cover t).start = min s.start t.start := rfl

@[simp] theorem stop_cover (s t : Span) : (s.cover t).stop = max s.stop t.stop := rfl

@[simp] theorem start_shift (s : Span) (d : Nat) : (s.shift d).start = s.start + d := rfl

@[simp] theorem stop_shift (s : Span) (d : Nat) : (s.shift d).stop = s.stop + d := rfl

theorem ofBounds?_eq_ok {start stop : Nat} {s : Span} (hs : s.start = start)
    (he : s.stop = stop) : ofBounds? start stop = .ok s := by
  subst hs he
  rw [ofBounds?, dif_pos s.start_le_stop]

/-- Sizes that are natural numbers are never refused. -/
theorem ofSizes?_natCast (start stop : Nat) :
    ofSizes? start stop = ofBounds? start stop := by
  rw [ofSizes?, offset?_natCast, offset?_natCast]
  rfl

theorem ofLength?_natCast (offset length : Nat) :
    ofLength? offset length = .ok (ofLength offset length) := by
  rw [ofLength?, offset?_natCast, offset?_natCast]
  rfl

theorem ofOffsets?_natCast (start stop : Nat) :
    ofOffsets? start stop = ofBounds? start stop := by
  have hs := Int.not_lt.mpr (Int.natCast_nonneg start)
  have he := Int.not_lt.mpr (Int.natCast_nonneg stop)
  rw [ofOffsets?, if_neg (not_or.mpr ⟨hs, he⟩), Int.toNat_natCast, Int.toNat_natCast]

@[simp] theorem toList_slice (s : Span) (source : String) :
    (s.slice source).toList = (source.toList.drop s.start).take s.length := by
  simp [slice]

end Span

end Comparability.Text
