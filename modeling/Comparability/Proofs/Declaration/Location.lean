import Comparability.Proofs.Declaration.Accounting
import Comparability.Proofs.Text.Search

/-!
# Where diagnostics stand in the source

A type that is located in a source has the span of an occurrence of its text, so the source is cut
there as `Cuts` says. The error about it was cut out of its text, and one cut within another is a cut
of the whole (`Cuts.within`): moved to the place of the type, the error covers its excerpt in the
source.

* `WrittenType.IsFirst` : the type stands at the leftmost occurrence of a text after a start;
* `WrittenType.Holds` : a diagnostic lies within a type, at a given excerpt;
* `holds_of_locate?` : the errors about a type that was located do.
-/

namespace Comparability

open Config (Options)
open Text (Occurs Span clampStart find?)
open TypeExpr (Cuts Malformed resolve)

/-! ## Cuts of a source -/

theorem Text.Occurs.cuts {source text : List Char} {p : Nat} (h : Occurs source text p) :
    ∃ before after, Cuts source (.ofLength p text.length) before text after := by
  obtain ⟨before, after, rfl, rfl⟩ := h
  exact ⟨before, after, rfl, rfl, by simp⟩

theorem TypeExpr.Cuts.slice_eq {source excerpt : String} {span : Span} {before after : List Char}
    (h : Cuts source.toList span before excerpt.toList after) : span.slice source = excerpt := by
  rw [← String.toList_inj, Span.toList_slice, ← h.excerpt_eq]

namespace Declaration

namespace WrittenType

/-- The type stands at the leftmost occurrence of the text that begins at or after the start. -/
structure IsFirst (source text : String) (start : Int) (w : WrittenType) : Prop where
  text_eq : w.text = text
  stop_eq : w.span.stop = w.span.start + text.length
  le_start : clampStart source.length start ≤ w.span.start
  occurs : Occurs source.toList text.toList w.span.start
  leftmost : ∀ p, clampStart source.length start ≤ p → Occurs source.toList text.toList p →
    w.span.start ≤ p
  slice : w.span.slice source = text

/-- The diagnostic lies within the type, where the excerpt is in the source. -/
structure Holds (source excerpt : String) (w : WrittenType) (x : Diagnostic) : Prop where
  le_start : w.span.start ≤ x.span.start
  stop_le : x.span.stop ≤ w.span.stop
  slice : x.span.slice source = excerpt

variable {source text : String} {start : Int} {w : WrittenType}

theorem locate?_eq_ok_iff : locate? source text start = .ok w ↔
    ∃ p, find? source text start = some p ∧ w = ofOffset text p := by
  unfold locate?
  cases find? source text start with
  | none => simp
  | some p => simp [eq_comm]

theorem exists_locate?_iff : (∃ w, locate? source text start = .ok w) ↔
    ∃ p, clampStart source.length start ≤ p ∧ Occurs source.toList text.toList p := by
  rw [← Text.exists_find?_iff]
  constructor
  · rintro ⟨w, hw⟩
    obtain ⟨p, hp, -⟩ := locate?_eq_ok_iff.mp hw
    exact ⟨p, hp⟩
  · rintro ⟨p, hp⟩
    exact ⟨ofOffset text p, locate?_eq_ok_iff.mpr ⟨p, hp, rfl⟩⟩

theorem isFirst_of_locate? (h : locate? source text start = .ok w) :
    w.IsFirst source text start := by
  obtain ⟨p, hp, rfl⟩ := locate?_eq_ok_iff.mp h
  obtain ⟨hle, hoccurs, hleft⟩ := Text.first_of_find? hp
  obtain ⟨before, after, hcut⟩ := hoccurs.cuts
  exact ⟨rfl, rfl, hle, hoccurs, hleft, (String.length_toList ▸ hcut).slice_eq⟩

/-- The error about a type that was located lies within it, at its excerpt. -/
theorem holds_of_locate? {classify : Classifier} {e : Malformed}
    (h : locate? source w.text start = .ok w)
    (he : (resolve classify w.text).outcome = .error e) :
    w.Holds source e.excerpt (e.diagnostic.moved w.span.start) := by
  have hfirst := isFirst_of_locate? h
  obtain ⟨-, before, after, hinner, -⟩ := TypeExpr.cuts_of_resolve he
  obtain ⟨front, back, hsource, hfront⟩ := hfirst.occurs
  refine ⟨Nat.le_add_left _ _, ?_, ?_⟩
  · have := hinner.stop_le
    rw [hfirst.stop_eq, Nat.add_comm, ← String.length_toList]
    exact Nat.add_le_add_right this _
  · have hcut := hinner.within front back
    rw [← hsource, hfront] at hcut
    exact hcut.slice_eq

end WrittenType

namespace Classification

variable {d : Declaration} {classify : Classifier}

theorem mem_diagnostics_of_error {w : WrittenType} {e : Malformed} (hw : w ∈ d.types)
    (he : (resolve classify w.text).outcome = .error e) :
    e.diagnostic.moved w.span.start ∈ (ofClassifier d classify).diagnostics := by
  apply diagnostics_perm.symm.subset
  exact List.mem_append_left _
    (List.mem_filterMap.mpr ⟨w, hw, WrittenType.error?_eq_some_iff.mpr ⟨e, he, rfl⟩⟩)

theorem exists_error_of_mem {x : Diagnostic} (hx : x ∈ (ofClassifier d classify).diagnostics)
    (hcode : x.code = DiagnosticKind.malformedType.code) :
    ∃ w ∈ d.types, ∃ e, (resolve classify w.text).outcome = .error e ∧
      x = e.diagnostic.moved w.span.start := by
  rcases List.mem_append.mp (diagnostics_perm.subset hx) with hx | hx
  · obtain ⟨w, hw, he⟩ := List.mem_filterMap.mp hx
    exact ⟨w, hw, WrittenType.error?_eq_some_iff.mp he⟩
  · obtain ⟨m, -, hm⟩ := List.mem_filterMap.mp hx
    rw [(Member.ofKind_of_warning? hm).code] at hcode
    exact absurd hcode (by decide)

/-- **Diagnostics stand on the text that they are about.** A type is located at the leftmost
occurrence of its text after the start, if there is one. In a declaration whose types were all
located in one source, the error about a type lies within that type, and the source reads there
what the excerpt of the error is; all the errors of the declaration are such. -/
theorem diagnostics_located (source : String) :
    (∀ text start,
      ((∃ w, WrittenType.locate? source text start = .ok w) ↔
        ∃ p, clampStart source.length start ≤ p ∧ Occurs source.toList text.toList p) ∧
      ∀ w, WrittenType.locate? source text start = .ok w → w.IsFirst source text start) ∧
    ∀ (d : Declaration) (options : Option Options) (classifier : Option Classifier),
      (∀ w ∈ d.types, ∃ start, WrittenType.locate? source w.text start = .ok w) →
      options = none ∨ classifier = none →
      ∃ c, ofDeclaration? d options classifier = .ok c ∧
        (∀ w ∈ d.types, ∀ e,
          (resolve (classifierFor d options classifier) w.text).outcome = .error e →
            e.diagnostic.moved w.span.start ∈ c.diagnostics ∧
            w.Holds source e.excerpt (e.diagnostic.moved w.span.start)) ∧
        ∀ x ∈ c.diagnostics, x.code = DiagnosticKind.malformedType.code →
          ∃ w ∈ d.types, ∃ e,
            (resolve (classifierFor d options classifier) w.text).outcome = .error e ∧
            x = e.diagnostic.moved w.span.start := by
  refine ⟨fun text start => ⟨WrittenType.exists_locate?_iff, fun w =>
    WrittenType.isFirst_of_locate?⟩, fun d options classifier hd h => ?_⟩
  refine ⟨_, ofDeclaration?_eq_ok h, fun w hw e he => ?_, fun x hx hcode => ?_⟩
  · obtain ⟨start, hstart⟩ := hd w hw
    exact ⟨mem_diagnostics_of_error hw he, WrittenType.holds_of_locate? hstart he⟩
  · exact exists_error_of_mem hx hcode

/-- A type located from a start before the source, its second occurrence, and an empty type at the
end of the source. -/
theorem diagnostics_of_located_types :
    ∃ c, ofDeclaration? ⟨"Shape", [{
        name := "area"
        parameters := [⟨"unit", .ofOffset "Int]" 16⟩, ⟨"of", .ofOffset "Int]" 26⟩]
        returnType := some (.ofOffset "" 35) }], []⟩ none none = .ok c ∧
      (∃ x ∈ c.diagnostics, x.span.start = 19 ∧
        x.span.slice "func area(unit: Int], of: Int]) -> " = "]") ∧
      (∃ x ∈ c.diagnostics, x.span.start = 29 ∧
        x.span.slice "func area(unit: Int], of: Int]) -> " = "]") ∧
      (∃ x ∈ c.diagnostics, x.span.start = 35 ∧
        x.span.slice "func area(unit: Int], of: Int]) -> " = "") := by
  obtain ⟨-, hdeclaration⟩ := diagnostics_located "func area(unit: Int], of: Int]) -> "
  obtain ⟨c, hc, herrors, -⟩ := hdeclaration ⟨"Shape", [{
      name := "area"
      parameters := [⟨"unit", .ofOffset "Int]" 16⟩, ⟨"of", .ofOffset "Int]" 26⟩]
      returnType := some (.ofOffset "" 35) }], []⟩ none none
    (by
      intro w hw
      have hw : w ∈ [.ofOffset "Int]" 16, .ofOffset "Int]" 26, .ofOffset "" 35] := hw
      simp only [List.mem_cons, List.not_mem_nil, or_false] at hw
      rcases hw with rfl | rfl | rfl
      · exact ⟨-100, rfl⟩
      · exact ⟨17, rfl⟩
      · exact ⟨35, rfl⟩)
    (.inl rfl)
  have hunit := herrors (.ofOffset "Int]" 16) (by decide)
    ⟨"Int]", .unbalancedCloser, ⟨3, 4, by decide⟩⟩ rfl
  have hof := herrors (.ofOffset "Int]" 26) (by decide)
    ⟨"Int]", .unbalancedCloser, ⟨3, 4, by decide⟩⟩ rfl
  have hreturn := herrors (.ofOffset "" 35) (by decide)
    ⟨"", .emptyExpression, ⟨0, 0, by decide⟩⟩ rfl
  exact ⟨c, hc, ⟨_, hunit.1, rfl, hunit.2.slice⟩, ⟨_, hof.1, rfl, hof.2.slice⟩,
    ⟨_, hreturn.1, rfl, hreturn.2.slice⟩⟩

end Classification

end Declaration

end Comparability
