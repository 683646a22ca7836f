import Comparability.Proofs.Session
import Comparability.Proofs.Text.Blank

/-!
# What options hold

Entries give options exactly when they are `Accepted`, and the options are then their texts,
trimmed, in order (`ofEntries?_eq_ok_iff`). A session that is configured again and again holds the
texts of the entries that were accepted, one after the other, and nothing of the others
(`Session.names_configured`).

What options hold is `Tidy`: such options, written as entries, give themselves again. To the
classifier it does not matter that the names are trimmed, since it normalises them once more.
-/

namespace Comparability

open Names (AssociatedType Listed canonical_trim)
open Text (trim isBlankText)

namespace Config

/-! ## Entries that are accepted -/

namespace Value

/-- A text that is not blank. -/
def isName : Value → Bool
  | text s => !isBlankText s
  | _ => false

def isNameList : Value → Bool
  | list items => items.all isName
  | _ => false

def text? : Value → Option String
  | text s => some s
  | _ => none

def texts : Value → List String
  | list items => items.filterMap text?
  | _ => []

end Value

theorem OptionKey.mem_all (key : OptionKey) : key ∈ OptionKey.all := by
  cases key <;> decide

/-- Every key is known, and what stands under a key is a list of texts that are not blank. -/
structure Accepted (entries : Entries) : Prop where
  known : ∀ entry ∈ entries, entry.1 ∈ OptionKey.all.map OptionKey.name
  lists : ∀ key ∈ OptionKey.all, (entries.lookup key.name).all Value.isNameList = true

instance (entries : Entries) : Decidable (Accepted entries) :=
  decidable_of_iff
    ((∀ entry ∈ entries, entry.1 ∈ OptionKey.all.map OptionKey.name) ∧
      ∀ key ∈ OptionKey.all, (entries.lookup key.name).all Value.isNameList = true)
    ⟨fun h => ⟨h.1, h.2⟩, fun h => ⟨h.1, h.2⟩⟩

/-- The texts under a key, as they were written. -/
def written (entries : Entries) (key : OptionKey) : List String :=
  ((entries.lookup key.name).map Value.texts).getD []

namespace Options

def names (o : Options) : OptionKey → List String
  | .comparableTypes => o.comparableTypes
  | .equatableTypes => o.equatableTypes

end Options

variable {key : OptionKey} {item : Value} {items : List Value} {name : String}
  {typeNames : List String} {entries : Entries} {o : Options}

/-! ## What one mapping gives -/

theorem typeName?_eq_ok_iff :
    typeName? key item = .ok name ↔ item.isName = true ∧ item.text?.map trim = some name := by
  cases item with
  | text s =>
    simp only [typeName?, Text.trim_eq_empty_iff, Value.isName, Value.text?, Option.map_some,
      Bool.not_eq_true']
    split_ifs with h <;> simp [h]
  | _ => simp [typeName?, Value.isName]

/-- One text that is blank, or one item that is no text, and there are no names at all. -/
theorem mapM_typeName?_eq_ok_iff :
    items.mapM (typeName? key) = .ok typeNames ↔
      items.all Value.isName = true ∧ (items.filterMap Value.text?).map trim = typeNames := by
  induction items generalizing typeNames with
  | nil => simp [pure, Except.pure]
  | cons item items ih =>
    rw [List.mapM_cons, List.all_cons, Bool.and_eq_true]
    constructor
    · intro h
      cases hitem : typeName? key item with
      | error fault => rw [hitem] at h; cases h
      | ok name =>
        cases hitems : items.mapM (typeName? key) with
        | error fault => rw [hitem, hitems] at h; cases h
        | ok rest =>
          rw [hitem, hitems] at h
          obtain rfl := Except.ok.inj h
          obtain ⟨hname, htext⟩ := typeName?_eq_ok_iff.mp hitem
          obtain ⟨hnames, rfl⟩ := ih.mp hitems
          obtain ⟨s, hs, rfl⟩ := Option.map_eq_some_iff.mp htext
          exact ⟨⟨hname, hnames⟩, by rw [List.filterMap_cons_some hs, List.map_cons]⟩
    · rintro ⟨⟨hname, hnames⟩, rfl⟩
      cases item with
      | text s =>
        rw [typeName?_eq_ok_iff.mpr ⟨hname, rfl⟩, ih.mpr ⟨hnames, rfl⟩]
        rfl
      | _ => cases hname

theorem typeNames?_eq_ok_iff {value : Option Value} :
    typeNames? key value = .ok typeNames ↔
      value.all Value.isNameList = true ∧
        ((value.map Value.texts).getD []).map trim = typeNames := by
  cases value with
  | none => simp [typeNames?]
  | some value =>
    cases value with
    | list items => exact mapM_typeName?_eq_ok_iff
    | _ => simp [typeNames?, Value.isNameList]

theorem isNone_ofName? {text : String} :
    (OptionKey.ofName? text).isNone = true ↔ text ∉ OptionKey.all.map OptionKey.name := by
  simp [OptionKey.ofName?, List.find?_eq_none]

theorem unknownKeys_eq_nil_iff :
    Options.unknownKeys entries = [] ↔
      ∀ entry ∈ entries, entry.1 ∈ OptionKey.all.map OptionKey.name := by
  simp only [List.eq_nil_iff_forall_not_mem, Options.unknownKeys, Text.mem_sortedSet,
    List.mem_filter, isNone_ofName?, not_and, not_not]
  exact List.forall_mem_map

/-- Entries give options when they are accepted, and the options hold their texts, trimmed. -/
theorem ofEntries?_eq_ok_iff :
    Options.ofEntries? entries = .ok o ↔
      Accepted entries ∧ ∀ key, o.names key = (written entries key).map trim := by
  unfold Options.ofEntries?
  split
  · next hk =>
    constructor
    · intro h
      cases hc : typeNames? .comparableTypes (entries.lookup OptionKey.comparableTypes.name) with
      | error fault => rw [hc] at h; cases h
      | ok comparableTypes =>
        cases he : typeNames? .equatableTypes (entries.lookup OptionKey.equatableTypes.name) with
        | error fault => rw [hc, he] at h; cases h
        | ok equatableTypes =>
          rw [hc, he] at h
          obtain rfl := Except.ok.inj h
          obtain ⟨hcl, hcn⟩ := typeNames?_eq_ok_iff.mp hc
          obtain ⟨hel, hen⟩ := typeNames?_eq_ok_iff.mp he
          refine ⟨⟨unknownKeys_eq_nil_iff.mp hk, fun key _ => ?_⟩, fun key => ?_⟩
          · cases key with
            | comparableTypes => exact hcl
            | equatableTypes => exact hel
          · cases key with
            | comparableTypes => exact hcn.symm
            | equatableTypes => exact hen.symm
    · rintro ⟨hacc, hnames⟩
      have hvalue : ∀ key, typeNames? key (entries.lookup key.name) = .ok (o.names key) :=
        fun key => typeNames?_eq_ok_iff.mpr ⟨hacc.lists key key.mem_all, (hnames key).symm⟩
      rw [hvalue .comparableTypes, hvalue .equatableTypes]
      rfl
  · next hk =>
    constructor
    · intro h
      cases h
    · rintro ⟨hacc, -⟩
      exact absurd (unknownKeys_eq_nil_iff.mpr hacc.known) hk

theorem exists_ofEntries?_iff : (∃ o, Options.ofEntries? entries = .ok o) ↔ Accepted entries := by
  simp only [ofEntries?_eq_ok_iff]
  refine ⟨fun ⟨_, h, _⟩ => h, fun h => ?_⟩
  refine ⟨⟨(written entries .comparableTypes).map trim, (written entries .equatableTypes).map trim⟩,
    h, fun key => ?_⟩
  cases key <;> rfl

theorem Accepted.not_blank (h : Accepted entries) {text : String}
    (ht : text ∈ written entries key) : ¬ isBlankText text = true := by
  have hlist := h.lists key key.mem_all
  unfold written at ht
  cases hv : entries.lookup key.name with
  | none => rw [hv] at ht; cases ht
  | some value =>
    rw [hv] at ht hlist
    cases value with
    | list items =>
      obtain ⟨item, hi, htext⟩ := List.mem_filterMap.mp ht
      have hname := List.all_eq_true.mp hlist item hi
      cases item with
      | text s =>
        obtain rfl := Option.some.inj htext
        simpa [Value.isName] using hname
      | _ => cases htext
    | _ => cases hlist

/-! ## Options written as entries -/

namespace Options

/-- No name is empty, and none has blanks around it. -/
def Tidy (o : Options) : Prop :=
  ∀ key, ∀ name ∈ o.names key, name ≠ "" ∧ trim name = name

def toEntries (o : Options) : Entries :=
  OptionKey.all.map fun key => (key.name, .list ((o.names key).map .text))

theorem lookup_toEntries (o : Options) (key : OptionKey) :
    o.toEntries.lookup key.name = some (.list ((o.names key).map .text)) := by
  cases key <;> rfl

theorem Tidy.ofEntries?_toEntries (h : o.Tidy) : ofEntries? o.toEntries = .ok o := by
  have hname : ∀ {key name}, name ∈ o.names key → isBlankText name = false := by
    intro key name hn
    obtain ⟨hne, htrim⟩ := h key name hn
    rw [← htrim, ne_eq, Text.trim_eq_empty_iff] at hne
    exact Bool.eq_false_iff.mpr hne
  refine ofEntries?_eq_ok_iff.mpr ⟨⟨fun entry he => ?_, fun key _ => ?_⟩, fun key => ?_⟩
  · obtain ⟨key, hk, rfl⟩ := List.mem_map.mp he
    exact List.mem_map_of_mem hk
  · rw [lookup_toEntries, Option.all_some, Value.isNameList, List.all_map, List.all_eq_true]
    intro name hn
    rw [Function.comp_apply, Value.isName, hname hn]
    rfl
  · have htexts : ((o.names key).map Value.text).filterMap Value.text? = o.names key := by
      rw [List.filterMap_map]
      exact List.filterMap_some
    rw [written, lookup_toEntries, Option.map_some, Option.getD_some, Value.texts, htexts]
    exact ((List.map_congr_left fun name hn => (h key name hn).2).trans (List.map_id _)).symm

theorem names_merge (o p : Options) (key : OptionKey) :
    (o.merge p).names key = o.names key ++ p.names key := by
  cases key <;> rfl

theorem Tidy.merge {p : Options} (ho : o.Tidy) (hp : p.Tidy) : (o.merge p).Tidy := by
  intro key name hn
  rw [names_merge] at hn
  exact (List.mem_append.mp hn).elim (ho key name) (hp key name)

theorem tidy_of_ofEntries? (h : ofEntries? entries = .ok o) : o.Tidy := by
  obtain ⟨hacc, hnames⟩ := ofEntries?_eq_ok_iff.mp h
  intro key name hn
  rw [hnames key] at hn
  obtain ⟨text, ht, rfl⟩ := List.mem_map.mp hn
  refine ⟨fun hempty => ?_, Text.trim_trim text⟩
  exact absurd (Text.trim_eq_empty_iff.mp hempty) (hacc.not_blank ht)

end Options

/-- The options of all the entries that are accepted, with the texts as they were written. -/
def asWritten (mappings : List Entries) : Options where
  comparableTypes := (mappings.filter fun m => Accepted m).flatMap (written · .comparableTypes)
  equatableTypes := (mappings.filter fun m => Accepted m).flatMap (written · .equatableTypes)

theorem names_asWritten (mappings : List Entries) (key : OptionKey) :
    (asWritten mappings).names key =
      (mappings.filter fun m => Accepted m).flatMap (written · key) := by
  cases key <;> rfl

end Config

open Config

theorem listed_map_trim {names : List String} {name : String} :
    Listed (names.map trim) name ↔ Listed names name := by
  simp only [Listed, List.mem_map, exists_exists_and_eq_and, canonical_trim]

/-- The classifier depends on which names are listed, not on how they are written. -/
theorem classifierOf_eq_of_listed {o p : Options}
    (h : ∀ key name, Listed (o.names key) name ↔ Listed (p.names key) name)
    (types : List AssociatedType) : classifierOf types o = classifierOf types p := by
  have hc : ∀ name, Listed o.comparableTypes name ↔ Listed p.comparableTypes name :=
    h .comparableTypes
  have he : ∀ name, Listed o.equatableTypes name ↔ Listed p.equatableTypes name :=
    h .equatableTypes
  apply Names.Table.classify_congr <;> intro name <;>
    simp only [additionsOf, Names.Table.build, List.mem_append, Names.mem_canonicalAll_congr hc,
      Names.mem_canonicalAll_congr he]

theorem classifierOf_trimmed {o p : Options} (h : ∀ key, o.names key = (p.names key).map trim)
    (types : List AssociatedType) : classifierOf types o = classifierOf types p := by
  refine classifierOf_eq_of_listed (fun key name => ?_) types
  rw [h key, listed_map_trim]

/-! ## A session that is configured again and again -/

namespace Session

variable {s : Session} {entries : Entries} {mappings : List Entries} {key : OptionKey}

/-- Entries that are refused leave a session as it was, even if a part of them is in order. -/
theorem take_of_not_accepted (h : ¬ Accepted entries) : s.take (.configure entries) = s := by
  cases ho : Options.ofEntries? entries with
  | ok o => exact absurd (ofEntries?_eq_ok_iff.mp ho).1 h
  | error fault => simp only [take, configure?, ho, bind, Except.bind]

theorem options_take {o : Options} (h : Options.ofEntries? entries = .ok o) :
    (s.take (.configure entries)).options = s.options.merge o := by
  simp only [take, configure?, h, bind, Except.bind, pure, Except.pure]

theorem names_configured :
    (s.run (mappings.map .configure)).options.names key =
      s.options.names key ++
        ((mappings.filter fun m => Accepted m).flatMap (written · key)).map trim := by
  induction mappings generalizing s with
  | nil => simp [run]
  | cons entries mappings ih =>
    rw [List.map_cons, run, List.foldl_cons, ← run, ih]
    by_cases h : Accepted entries
    · obtain ⟨o, ho⟩ := exists_ofEntries?_iff.mpr h
      rw [options_take ho, Options.names_merge, (ofEntries?_eq_ok_iff.mp ho).2 key,
        List.filter_cons_of_pos (p := fun m => Accepted m) (decide_eq_true h), List.flatMap_cons,
        List.map_append, List.append_assoc]
    · rw [take_of_not_accepted h, List.filter_cons_of_neg (p := fun m => Accepted m) (by simp [h])]

theorem tidy_take (h : s.options.Tidy) (step : Step) : (s.take step).options.Tidy := by
  cases step with
  | associate declaration => exact h
  | configure entries =>
    by_cases hacc : Accepted entries
    · obtain ⟨o, ho⟩ := exists_ofEntries?_iff.mpr hacc
      rw [options_take ho]
      exact h.merge (Options.tidy_of_ofEntries? ho)
    · rwa [take_of_not_accepted hacc]

theorem tidy_run (h : s.options.Tidy) (steps : List Step) : (s.run steps).options.Tidy := by
  induction steps generalizing s with
  | nil => exact h
  | cons step steps ih => exact ih (tidy_take h step)

/-- **Options hold exactly what was accepted.** Entries give options when every key is known and
every value is a list of texts that are not blank; the options are these texts, trimmed, in order.
Entries that are refused leave a session as it was, so that after a list of entries the options are
the texts of those that were accepted, one after the other. No name that a session holds is empty or
has blanks around it, its options are options again when they are written as entries, and its
classifier is that of the texts as they were written. -/
theorem options_of_run :
    (∀ entries, (∃ o, Options.ofEntries? entries = .ok o) ↔ Accepted entries) ∧
    (∀ entries o, Options.ofEntries? entries = .ok o →
      ∀ key, o.names key = (written entries key).map trim) ∧
    (∀ (s : Session) entries, ¬ Accepted entries → s.take (.configure entries) = s) ∧
    (∀ (s : Session) (mappings : List Entries) key,
      (s.run (mappings.map .configure)).options.names key =
        s.options.names key ++
          ((mappings.filter fun m => Accepted m).flatMap (written · key)).map trim) ∧
    (∀ steps key, ∀ name ∈ (run {} steps).options.names key, name ≠ "" ∧ trim name = name) ∧
    (∀ steps, Options.ofEntries? (run {} steps).options.toEntries = .ok (run {} steps).options) ∧
    (∀ types (mappings : List Entries),
      classifierOf types (run {} (mappings.map .configure)).options =
        classifierOf types (asWritten mappings)) := by
  have htidy : ∀ steps, (run {} steps).options.Tidy := by
    refine tidy_run fun key name hn => ?_
    cases key <;> cases hn
  refine ⟨fun _ => exists_ofEntries?_iff, fun _ _ h => (ofEntries?_eq_ok_iff.mp h).2,
    fun _ _ h => take_of_not_accepted h, fun _ _ _ => names_configured, htidy,
    fun steps => (htidy steps).ofEntries?_toEntries, fun types mappings => ?_⟩
  refine classifierOf_trimmed (fun key => ?_) types
  rw [names_configured, names_asWritten]
  cases key <;> rfl

/-- The second mapping has a good list and a bad one. -/
theorem options_of_refused_mapping :
    ∃ good bad : Entries,
      good = [("additional_equatable_types", .list [.text " Key\t", .text "A B"])] ∧
      bad = [("additional_comparable_types", .list [.text "Item"]),
        ("additional_equatable_types", .list [.text "Other", .text " "])] ∧
      Options.names ⟨[], ["Key", "A B"]⟩ .equatableTypes = (written good .equatableTypes).map trim ∧
      take {} (.configure bad) = {} ∧
      "Key" ≠ "" ∧ trim "Key" = "Key" := by
  refine ⟨_, _, rfl, rfl, ?_⟩
  obtain ⟨-, hnames, hrefused, -, htidy, -⟩ := options_of_run
  refine ⟨hnames _ _ ?_ _, hrefused {} _ (by decide), ?_⟩
  · exact ofEntries?_eq_ok_iff.mpr ⟨by decide, by intro key; cases key <;> rfl⟩
  · refine htidy [.configure [("additional_equatable_types", .list [.text " Key\t"])]]
      .equatableTypes "Key" ?_
    decide +kernel

end Session

end Comparability
