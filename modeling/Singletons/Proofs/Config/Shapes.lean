import Mathlib.Data.List.Induction
import Mathlib.Data.Nat.Digits.Defs
import Singletons.Logging.Request
import Singletons.Proofs.Logging.Settings
/-!
# Which documents configure a registry

The three keys of the section `registry` are read in different ways: a limit or a path that is not
one is passed over, exclusions that are none are an error. What a document says, and which ones
cannot be read at all, is said here without reference to the reader of documents. Which texts stand
for numbers is left open: others decide it, and a limit is what they take its text for.
-/

namespace Singletons

namespace Document

variable {α : Type}

/-- The first entry under a scalar with this text is for the node. -/
def Holds (entries : Entries) (key : String) (node : Document) : Prop :=
  ∃ before after, entries = before ++ (scalar key, node) :: after ∧ key ∉ keys before

/-- A document is a map that holds the node under the key. -/
def Has (root : Document) (key : String) (node : Document) : Prop :=
  ∃ entries, root = map entries ∧ Holds entries key node

/-- What the node under a key stands for, or the default if there is none or it stands for
nothing. -/
def Yields (entries : Entries) (key : String) (means : Document → α → Prop) (default a : α) :
    Prop :=
  (∃ node, Holds entries key node ∧ means node a) ∨
    ((∀ node b, Holds entries key node → ¬ means node b) ∧ a = default)

theorem holds_cons {entry : Document × Document} {rest : Entries} {key : String}
    {node : Document} : Holds (entry :: rest) key node ↔
      entry = (scalar key, node) ∨ (entry.1 ≠ scalar key ∧ Holds rest key node) := by
  constructor
  · rintro ⟨before, after, same, first⟩
    cases before with
    | nil => exact .inl (List.cons.inj same).1
    | cons e before =>
      obtain ⟨rfl, rfl⟩ := List.cons.inj same
      rw [keys, List.filterMap_cons] at first
      refine .inr ⟨fun other => first ?_, before, after, rfl, fun later => first ?_⟩
      · rw [key?_eq_some_iff.mpr other]
        exact List.mem_cons_self
      · split
        · exact later
        · exact List.mem_cons_of_mem _ later
  · rintro (rfl | ⟨other, before, after, rfl, first⟩)
    · exact ⟨[], rest, rfl, List.not_mem_nil⟩
    · refine ⟨entry :: before, after, rfl, fun earlier => ?_⟩
      rw [keys, List.filterMap_cons] at earlier
      split at earlier
      · exact first earlier
      · rename_i found
        rcases List.mem_cons.mp earlier with rfl | earlier
        · exact other (key?_eq_some_iff.mp found)
        · exact first earlier

theorem child?_eq_some_iff_holds {entries : Entries} {key : String} {node : Document} :
    child? key entries = some node ↔ Holds entries key node := by
  fun_induction child? key entries with
  | case1 => simp [Holds]
  | case2 found rest => simp [holds_cons]
  | case3 text found rest other ih => simp [holds_cons, ih, other]
  | case4 entry rest other ih =>
    have apart : entry.1 ≠ scalar key := fun same => other key entry.2 (Prod.ext same rfl)
    have apart' : entry ≠ (scalar key, node) := fun same => apart (congrArg Prod.fst same)
    simp [holds_cons, ih, apart, apart']

theorem has_iff {root node : Document} {key : String} :
    root.Has key node ↔ root.get? key = .ok (some node) := by
  constructor
  · rintro ⟨entries, rfl, holds⟩
    rw [get?, child?_eq_some_iff_holds.mpr holds]
  · intro found
    cases root with
    | map entries =>
      rw [get?, Except.ok.injEq, child?_eq_some_iff_holds] at found
      exact ⟨entries, rfl, found⟩
    | _ => cases found

/-- A reader of numbers takes a text for a number. -/
def Reads (number? : String → Option Nat) (text : String) (n : Nat) : Prop := number? text = some n

theorem Has.unique {root node node' : Document} {key : String} (has : root.Has key node)
    (has' : root.Has key node') : node = node' := by
  rw [has_iff] at has has'
  cases has.symm.trans has'
  rfl

/-- A reader that finds what nodes stand for finds what an entry yields. -/
theorem yields_iff {read : Document → Option α} {means : Document → α → Prop}
    (reads : ∀ node a, read node = some a ↔ means node a) {entries : Entries} {key : String}
    {default a : α} : Yields entries key means default a ↔
      a = ((child? key entries).bind read).getD default := by
  constructor
  · rintro (⟨node, holds, stands⟩ | ⟨nothing, rfl⟩)
    · rw [child?_eq_some_iff_holds.mpr holds, Option.bind_some, (reads node a).mpr stands,
        Option.getD_some]
    · cases found : (child? key entries).bind read with
      | none => rfl
      | some b =>
        obtain ⟨node, child, stands⟩ := Option.bind_eq_some_iff.mp found
        exact absurd ((reads node b).mp stands) (nothing node b (child?_eq_some_iff_holds.mp child))
  · rintro rfl
    cases found : (child? key entries).bind read with
    | none =>
      refine .inr ⟨fun node b holds stands => ?_, rfl⟩
      rw [child?_eq_some_iff_holds.mpr holds, Option.bind_some, (reads node b).mpr stands] at found
      cases found
    | some b =>
      obtain ⟨node, child, stands⟩ := Option.bind_eq_some_iff.mp found
      exact .inl ⟨node, child?_eq_some_iff_holds.mp child, (reads node b).mp stands⟩

theorem mapM_text_scalar (texts : List String) : (texts.map scalar).mapM text = .ok texts := by
  induction texts with
  | nil => rfl
  | cons s texts ih =>
    rw [List.map_cons, List.mapM_cons, ih]
    rfl

theorem eq_of_mapM_text {items : List Document} {texts : List String}
    (read : items.mapM text = .ok texts) : items = texts.map scalar := by
  induction items generalizing texts with
  | nil =>
    cases read
    rfl
  | cons item items ih =>
    rw [List.mapM_cons] at read
    cases first : item.text with
    | error e =>
      rw [first] at read
      cases read
    | ok s =>
      cases rest : items.mapM text with
      | error e =>
        rw [first, rest] at read
        cases read
      | ok others =>
        rw [first, rest] at read
        cases read
        rw [text_eq_ok_iff.mp first, ih rest, List.map_cons]

theorem texts_eq_ok_iff {d : Document} {texts : List String} :
    d.texts = .ok texts ↔ d = .sequence (texts.map scalar) := by
  cases d with
  | sequence items =>
    rw [Document.texts, sequence.injEq]
    exact ⟨eq_of_mapM_text, fun same => same ▸ mapM_text_scalar texts⟩
  | _ => exact iff_of_false nofun nofun

/-! ## Numbers -/

theorem size?_eq_some_iff {number? : String → Option Nat} {d : Document} {n : Nat} :
    d.size? number? = some n ↔ ∃ text, d = .scalar text ∧ Reads number? text n := by
  cases d <;> simp [size?, Reads]

end Document

namespace Config

open Document

/-- What the entries of a section say, where some texts stand for numbers. -/
structure States (Number : String → Nat → Prop) (entries : Entries) (config : Config) : Prop where
  limit : Yields entries "suppressed_fault_limit"
    (fun node n => ∃ text, node = .scalar text ∧ Number text n) 100 config.limit
  exclusions : Yields entries "creation_check_exclusions"
    (fun node texts => node = .sequence (texts.map .scalar)) [] config.exclusions
  logging : Yields entries "logging" (fun node path => node = .scalar path) "" config.logging

/-- What a document says, which is nothing if its section is not a map. -/
def Means (Number : String → Nat → Prop) (root : Document) (config : Config) : Prop :=
  (∃ entries, root.Has "registry" (.map entries) ∧ States Number entries config) ∨
    ((∀ entries, ¬ root.Has "registry" (.map entries)) ∧ config = {})

variable {number? : String → Option Nat}

/-- The configuration that entries give, apart from exclusions that cannot be read. -/
def ofEntries (number? : String → Option Nat) (entries : Entries) : Config where
  limit := ((child? "suppressed_fault_limit" entries).bind (size? number?)).getD 100
  exclusions := ((child? "creation_check_exclusions" entries).bind (·.texts.toOption)).getD []
  logging := ((child? "logging" entries).bind key?).getD ""

theorem states_iff {entries : Entries} {config : Config} :
    States (Reads number?) entries config ↔ config = ofEntries number? entries := by
  have listed (node : Document) (texts : List String) :
      node.texts.toOption = some texts ↔ node = .sequence (texts.map .scalar) := by
    rw [← texts_eq_ok_iff]
    cases node.texts <;> simp [Except.toOption]
  constructor
  · rintro ⟨limit, exclusions, logging⟩
    rw [yields_iff fun _ _ => size?_eq_some_iff] at limit
    rw [yields_iff listed] at exclusions
    rw [yields_iff fun _ _ => key?_eq_some_iff] at logging
    cases config
    simp_all [ofEntries]
  · rintro rfl
    exact ⟨(yields_iff fun _ _ => size?_eq_some_iff).mpr rfl, (yields_iff listed).mpr rfl,
      (yields_iff fun _ _ => key?_eq_some_iff).mpr rfl⟩

theorem Means.unique {root : Document} {config config' : Config}
    (means : Means (Reads number?) root config)
    (means' : Means (Reads number?) root config') : config = config' := by
  rcases means with ⟨entries, has, stated⟩ | ⟨none, rfl⟩ <;>
    rcases means' with ⟨entries', has', stated'⟩ | ⟨none', rfl⟩
  · cases has.unique has'
    rw [states_iff.mp stated, states_iff.mp stated']
  · exact absurd has (none' entries)
  · exact absurd has' (none entries')
  · rfl

end Config

namespace Logging

/-- A section with a limit and one exclusion. -/
def limited (text : String) : Document :=
  .map [(.scalar "registry", .map [(.scalar "suppressed_fault_limit", .scalar text),
    (.scalar "creation_check_exclusions", .sequence [.scalar "a"])])]

end Logging

end Singletons
