import Singletons.Proofs.Cache.Access
/-!
# The tiers of the cache

An object that is bound, an early reference and a staged factory are kept in three containers, and
the names that have one of them in a list and in an index of the list. Only the operations of the
cache see to it that a name is in one tier at most, and that all five containers fit together.
-/

namespace Singletons

theorem NameMap.getElem?_insertIfNew {α : Type} (m : NameMap α) (k a : Name) (v : α) :
    (m.insertIfNew k v)[a]? = if k = a then some (m[k]?.getD v) else m[a]? := by
  simp only [Std.ExtTreeMap.getElem?_insertIfNew, Std.compare_eq_iff_eq]
  by_cases same : k = a
  · subst a
    by_cases there : k ∈ m
    · simp [there]
    · simp [there]
  · simp [same]

/-- The containers of a cache. Any of them may hold a null object or an empty factory. -/
structure Tiers where
  objects : NameMap (Option Object) := ∅
  early : NameMap (Option Object) := ∅
  factories : NameMap (Option CallbackId) := ∅
  registered : List Name := []
  index : NameSet := ∅

namespace Tiers

def find? (t : Tiers) (n : Name) : Option Object := (t.objects[n]?).join

def enlist (t : Tiers) (n : Name) : Tiers :=
  if t.index.contains n then t
  else { t with index := t.index.insert n, registered := t.registered ++ [n] }

def bind (t : Tiers) (n : Name) (object : Option Object) : Tiers :=
  { t with
    objects := t.objects.insert n object
    factories := t.factories.erase n
    early := t.early.erase n }.enlist n

def register (t : Tiers) (n : Name) (object : Option Object) : Tiers :=
  if object.isNone || t.objects.contains n then t else t.bind n object

/-- Takes a staged factory out if a look-up has to call it. -/
def consult (t : Tiers) (n : Name) (early inCreation : Bool) : Tiers :=
  if (t.find? n).isSome || !(early && inCreation) || t.early.contains n then t
  else { t with factories := t.factories.erase n }

/-- Goes on after the factory. What was bound or promoted meanwhile stays, and so does a factory
that was staged meanwhile if there is no object; a name that was removed meanwhile gets nothing. -/
def settle (t : Tiers) (n : Name) (factory : Option CallbackId) (made : Option Object) : Tiers :=
  if (t.find? n).isSome || t.early.contains n || !t.index.contains n then t
  else if made.isNone then { t with factories := t.factories.insertIfNew n factory }
  else { t with factories := t.factories.erase n, early := t.early.insert n made }

def stage (t : Tiers) (n : Name) (factory : Option CallbackId) : Tiers :=
  if factory.isNone || (t.find? n).isSome then t
  else { t with factories := t.factories.insert n factory, early := t.early.erase n }.enlist n

def remove (t : Tiers) (n : Name) : Tiers where
  objects := t.objects.erase n
  early := t.early.erase n
  factories := t.factories.erase n
  registered := if t.index.contains n then t.registered.filter (· != n) else t.registered
  index := t.index.erase n

def clear (_ : Tiers) : Tiers := {}

def access (t : Tiers) : Cache.Access → Tiers
  | .register n object => t.register n object
  | .bind n object => t.bind n (some object)
  | .consult n early inCreation => t.consult n early inCreation
  | .settle n factory made => t.settle n (some factory) made
  | .stage n factory => t.stage n factory
  | .remove n => t.remove n
  | .clear => t.clear
  | .leaves => t

/-- What the containers hold for one name. -/
structure Cell where
  object : Option (Option Object)
  early : Option (Option Object)
  factory : Option (Option CallbackId)
  indexed : Bool

def cell (t : Tiers) (n : Name) : Cell :=
  ⟨t.objects[n]?, t.early[n]?, t.factories[n]?, t.index.contains n⟩

/-- A name is in one tier at most, and only if it is in the index; what it has there is real. -/
structure Cell.Sound (c : Cell) : Prop where
  apart : (c.object = none ∨ c.early = none) ∧ (c.object = none ∨ c.factory = none) ∧
    (c.early = none ∨ c.factory = none)
  indexed : c.object.isSome ∨ c.early.isSome ∨ c.factory.isSome → c.indexed
  present : c.object ≠ some none ∧ c.early ≠ some none ∧ c.factory ≠ some none

/-- The list and its index hold the same names, each of them once. -/
structure Listed (t : Tiers) : Prop where
  same : ∀ n, n ∈ t.registered ↔ n ∈ t.index
  nodup : t.registered.Nodup

structure Sound (t : Tiers) : Prop where
  cell : ∀ n, (t.cell n).Sound
  listed : t.Listed

section Cells

variable {t : Tiers} {n m : Name}

theorem cell_early (early : ¬ t.early.contains n) : (t.cell n).early = none :=
  Std.ExtTreeMap.getElem?_eq_none fun there => early (Std.ExtTreeMap.contains_iff_mem.mpr there)

theorem cell_enlist :
    (t.enlist n).cell m = { t.cell m with indexed := m = n || t.index.contains m } := by
  unfold enlist
  split
  · by_cases hm : m = n
    · subst m
      simp [cell, *]
    · simp [cell, hm]
  · have inserted : (t.index.insert n).contains m = (m = n || t.index.contains m) := by
      rw [Std.ExtTreeSet.contains_insert]
      grind
    simp only [cell, inserted]

theorem cell_bind {object : Option Object} : (t.bind n object).cell m =
    if m = n then ⟨some object, none, none, true⟩ else t.cell m := by
  rw [bind, cell_enlist]
  by_cases hm : m = n
  · subst m
    simp [cell]
  · simp [cell, hm, NameMap.getElem?_insert, NameMap.getElem?_erase, Ne.symm hm]

theorem cell_stage {factory : Option CallbackId} (some : factory.isSome)
    (unbound : t.find? n = none) : (t.stage n factory).cell m =
      if m = n then ⟨t.objects[n]?, none, .some factory, true⟩ else t.cell m := by
  have moves : ¬ (factory.isNone || (t.find? n).isSome) := by
    simp [unbound, Option.isSome_iff_ne_none.mp some]
  rw [stage, if_neg moves, cell_enlist]
  by_cases hm : m = n
  · subst m
    simp [cell]
  · simp [cell, hm, NameMap.getElem?_insert, NameMap.getElem?_erase, Ne.symm hm]

theorem cell_remove :
    (t.remove n).cell m = if m = n then ⟨none, none, none, false⟩ else t.cell m := by
  by_cases hm : m = n
  · subst m
    simp [cell, remove]
  · have kept : (t.index.erase n).contains m = t.index.contains m := by
      rw [Std.ExtTreeSet.contains_erase]
      grind
    simp [cell, remove, hm, NameMap.getElem?_erase, Ne.symm hm, kept]

theorem cell_withdraw : cell { t with factories := t.factories.erase n } m =
    if m = n then { t.cell n with factory := none } else t.cell m := by
  by_cases hm : m = n
  · subst m
    simp [cell]
  · simp [cell, hm, NameMap.getElem?_erase, Ne.symm hm]

theorem cell_restage {factory : Option CallbackId} :
    cell { t with factories := t.factories.insertIfNew n factory } m =
      if m = n then { t.cell n with factory := some (t.factories[n]?.getD factory) }
      else t.cell m := by
  by_cases hm : m = n
  · subst m
    simp only [cell, NameMap.getElem?_insertIfNew, if_true]
  · simp only [cell, NameMap.getElem?_insertIfNew, if_neg hm, if_neg (Ne.symm hm)]

theorem cell_promote {made : Option Object} :
    cell { t with factories := t.factories.erase n, early := t.early.insert n made } m =
      if m = n then { t.cell n with early := some made, factory := none } else t.cell m := by
  by_cases hm : m = n
  · subst m
    simp [cell]
  · simp [cell, hm, NameMap.getElem?_insert, NameMap.getElem?_erase, Ne.symm hm]

end Cells

section Sound

variable {t : Tiers} {n : Name}

theorem Listed.enlist (h : t.Listed) (n : Name) : (t.enlist n).Listed := by
  unfold Tiers.enlist
  split
  · exact h
  · rename_i unlisted
    have fresh : n ∉ t.registered := by
      rw [h.same]
      exact fun there => unlisted (Std.ExtTreeSet.contains_iff_mem.mpr there)
    refine ⟨fun m => ?_, ?_⟩
    · rw [List.mem_append, List.mem_singleton, NameSet.mem_insert, h.same, or_comm]
    · rw [List.nodup_append]
      refine ⟨h.nodup, by simp, ?_⟩
      rintro m hm _ hn rfl
      rw [List.mem_singleton] at hn
      exact fresh (hn ▸ hm)

theorem Listed.bind (h : t.Listed) (n : Name) (object : Option Object) :
    (t.bind n object).Listed := by
  rw [Tiers.bind]
  apply Listed.enlist
  exact ⟨h.same, h.nodup⟩

theorem Listed.registered_remove (h : t.Listed) (n : Name) :
    (t.remove n).registered = t.registered.filter (· != n) := by
  by_cases there : t.index.contains n
  · exact if_pos there
  · have absent : n ∉ t.registered := by
      rw [h.same]
      exact fun hn => there (Std.ExtTreeSet.contains_iff_mem.mpr hn)
    rw [List.filter_eq_self.mpr]
    · exact if_neg there
    · intro m hm
      rw [bne_iff_ne]
      rintro rfl
      exact absent hm

theorem Listed.remove (h : t.Listed) (n : Name) : (t.remove n).Listed := by
  have filtered := h.registered_remove n
  refine ⟨fun m => ?_, ?_⟩
  · have erased : m ∈ (t.remove n).index ↔ m ≠ n ∧ m ∈ t.index := by
      rw [Tiers.remove, Std.ExtTreeSet.mem_erase, ne_eq, Std.compare_eq_iff_eq, eq_comm]
    rw [filtered, erased, List.mem_filter, h.same, bne_iff_ne, and_comm]
  · rw [filtered]
    exact h.nodup.filter _

theorem Sound.empty : Sound {} where
  cell n := by
    have nothing : ({} : Tiers).cell n = ⟨none, none, none, false⟩ := by simp [Tiers.cell]
    rw [nothing]
    exact ⟨by simp, by simp, by simp⟩
  listed := ⟨by simp, List.nodup_nil⟩

theorem Sound.object_of_find? (h : t.Sound) (unbound : t.find? n = none) :
    (t.cell n).object = none := by
  have present := (h.cell n).present.1
  rw [find?] at unbound
  cases hn : t.objects[n]? with
  | none => exact hn
  | some o =>
    rw [hn, Option.join_some] at unbound
    exact absurd (hn.trans (congrArg some unbound)) present

theorem Sound.bind (h : t.Sound) {object : Option Object} (present : object.isSome) :
    (t.bind n object).Sound := by
  refine ⟨fun m => ?_, h.listed.bind n object⟩
  rw [cell_bind]
  split
  · exact ⟨by simp, by simp, by simp [Option.isSome_iff_ne_none.mp present]⟩
  · exact h.cell m

theorem Sound.register (h : t.Sound) (object : Option Object) : (t.register n object).Sound := by
  unfold Tiers.register
  split
  · exact h
  · rename_i moves
    apply h.bind
    rw [Bool.or_eq_true, not_or, Option.isNone_iff_eq_none] at moves
    exact Option.isSome_iff_ne_none.mpr moves.1

theorem Sound.consult (h : t.Sound) (early inCreation : Bool) :
    (t.consult n early inCreation).Sound := by
  unfold Tiers.consult
  split
  · exact h
  · refine ⟨fun m => ?_, h.listed.same, h.listed.nodup⟩
    rw [cell_withdraw]
    split
    · obtain ⟨apart, indexed, present⟩ := h.cell n
      refine ⟨⟨apart.1, .inr rfl, .inr rfl⟩, fun there => indexed ?_, present.1, present.2.1, nofun⟩
      rcases there with object | early | factory
      · exact .inl object
      · exact .inr (.inl early)
      · cases factory
    · exact h.cell m

theorem Sound.stage (h : t.Sound) (factory : Option CallbackId) :
    (t.stage n factory).Sound := by
  by_cases stays : factory.isNone || (t.find? n).isSome
  · rw [Tiers.stage, if_pos stays]
    exact h
  · rw [Bool.or_eq_true, not_or, Option.isNone_iff_eq_none, Option.not_isSome_iff_eq_none] at stays
    obtain ⟨present, unbound⟩ := stays
    have object : t.objects[n]? = none := h.object_of_find? unbound
    refine ⟨fun m => ?_, ?_⟩
    · rw [cell_stage (Option.isSome_iff_ne_none.mpr present) unbound]
      split
      · exact ⟨by simp [object], by simp, by simp [object, present]⟩
      · exact h.cell m
    · rw [Tiers.stage, if_neg (by simp [present, unbound])]
      apply Listed.enlist
      exact ⟨h.listed.same, h.listed.nodup⟩

theorem Sound.settle (h : t.Sound) {factory : Option CallbackId} (present : factory.isSome)
    (made : Option Object) : (t.settle n factory made).Sound := by
  unfold Tiers.settle
  split
  · exact h
  · rename_i moves
    simp only [Bool.or_eq_true, not_or, Bool.not_eq_true', Bool.not_eq_false,
      Option.not_isSome_iff_eq_none] at moves
    obtain ⟨⟨unbound, noEarly⟩, indexed⟩ := moves
    have object : (t.cell n).object = none := h.object_of_find? unbound
    have early := cell_early noEarly
    obtain ⟨real, -, realFactory⟩ := (h.cell n).present
    split
    · refine ⟨fun m => ?_, h.listed.same, h.listed.nodup⟩
      rw [cell_restage]
      split
      · refine ⟨by simp [object, early], fun _ => indexed, real, by simp [early], fun null => ?_⟩
        have none := Option.some.inj null
        cases staged : t.factories[n]? with
        | none =>
          rw [staged] at none
          exact Option.isSome_iff_ne_none.mp present none
        | some other =>
          rw [staged] at none
          exact realFactory (staged.trans (congrArg some none))
      · exact h.cell m
    · rename_i some
      refine ⟨fun m => ?_, h.listed.same, h.listed.nodup⟩
      rw [cell_promote]
      split
      · refine ⟨by simp [object], fun _ => indexed, real, fun null => ?_, nofun⟩
        exact some (Option.isNone_iff_eq_none.mpr (Option.some.inj null))
      · exact h.cell m

theorem Sound.remove (h : t.Sound) : (t.remove n).Sound := by
  refine ⟨fun m => ?_, h.listed.remove n⟩
  rw [cell_remove]
  split
  · exact ⟨by simp, by simp, by simp⟩
  · exact h.cell m

theorem Sound.access (h : t.Sound) (a : Cache.Access) : (t.access a).Sound := by
  cases a with
  | register n object => exact h.register object
  | bind n object => exact h.bind rfl
  | consult n early inCreation => exact h.consult early inCreation
  | settle n factory made => exact h.settle rfl made
  | stage n factory => exact h.stage factory
  | remove n => exact h.remove
  | clear => exact .empty
  | leaves => exact h

end Sound

end Tiers

end Singletons
