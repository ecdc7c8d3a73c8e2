import Mathlib.Data.Finset.Card
import Singletons.Proofs.Cache.Tiers
/-!
# The cache and its tiers

The cache keeps early references and staged factories together, for no name can have both. At every
point of a life it holds what the tiers hold, which every step changes in the same way.
-/

namespace Singletons

namespace Cache

theorem bound_enlist (c : Cache) (n : Name) : (c.enlist n).bound = c.bound := by
  unfold enlist
  split <;> rfl

theorem bound_bind (c : Cache) (n m : Name) (o : Option Object) :
    (c.bind n o).bound[m]? = if n = m then some o else c.bound[m]? := by
  rw [bind, bound_enlist, NameMap.getElem?_insert]

theorem bound_stage (c : Cache) (n : Name) (f : CallbackId) : (c.stage n f).bound = c.bound := by
  rw [stage, bound_enlist]
  rfl

end Cache

namespace Tiers

/-- What stands for the name before it is bound. -/
def Cell.provisional? (c : Cell) : Option Provisional :=
  match c.early.join with
  | some o => some (.early o)
  | none => c.factory.join.map .staged

/-- The cache holds what is in the tiers. -/
structure Mirrors (t : Tiers) (c : Cache) : Prop where
  bound : ∀ n, c.bound[n]? = (t.cell n).object
  provisional : ∀ n, c.provisional[n]? = (t.cell n).provisional?
  registered : c.registered = t.registered

namespace Mirrors

variable {t : Tiers} {c : Cache} {n : Name}

theorem find? (h : t.Mirrors c) (n : Name) : t.find? n = c.find? n := by
  rw [Tiers.find?, Cache.find?, h.bound]
  rfl

theorem enlist (same : c.registered = t.registered) (listed : t.Listed) (n : Name) :
    (c.enlist n).registered = (t.enlist n).registered := by
  rw [Cache.registered_enlist, same, Tiers.enlist]
  by_cases there : n ∈ t.registered
  · rw [if_pos there, if_pos (Std.ExtTreeSet.contains_iff_mem.mpr ((listed.same n).mp there))]
  · rw [if_neg there, if_neg fun known =>
      there ((listed.same n).mpr (Std.ExtTreeSet.contains_iff_mem.mp known))]

/-- An operation that changes what the tiers hold for one name does the same to the cache. -/
theorem update {u : Tiers} {d : Cache} {own : Cell} (h : t.Mirrors c)
    (cells : ∀ m, u.cell m = if m = n then own else t.cell m)
    (bound : ∀ m, d.bound[m]? = if n = m then own.object else c.bound[m]?)
    (provisional : ∀ m, d.provisional[m]? = if n = m then own.provisional? else c.provisional[m]?)
    (registered : d.registered = u.registered) : u.Mirrors d := by
  refine ⟨fun m => ?_, fun m => ?_, registered⟩
  · rw [cells, bound]
    by_cases hm : m = n
    · rw [if_pos hm, if_pos hm.symm]
    · rw [if_neg hm, if_neg (Ne.symm hm), h.bound]
  · rw [cells, provisional]
    by_cases hm : m = n
    · rw [if_pos hm, if_pos hm.symm]
    · rw [if_neg hm, if_neg (Ne.symm hm), h.provisional]

theorem bound_own (h : t.Mirrors c) (n m : Name) :
    c.bound[m]? = if n = m then (t.cell n).object else c.bound[m]? := by
  split
  · subst m
    exact h.bound n
  · rfl

theorem provisional_own (h : t.Mirrors c) (n m : Name) :
    c.provisional[m]? = if n = m then (t.cell n).provisional? else c.provisional[m]? := by
  split
  · subst m
    exact h.provisional n
  · rfl

theorem bind (h : t.Mirrors c) (listed : t.Listed) (n : Name) (object : Option Object) :
    (t.bind n object).Mirrors (c.bind n object) := by
  apply h.update (fun _ => cell_bind) (fun m => c.bound_bind n m object)
    (fun m => c.provisional_bind n m object)
  rw [Cache.bind, Tiers.bind]
  apply enlist
  · exact h.registered
  · exact ⟨listed.same, listed.nodup⟩

theorem stage (h : t.Mirrors c) (listed : t.Listed) (factory : CallbackId)
    (unbound : t.find? n = none) : (t.stage n (some factory)).Mirrors (c.stage n factory) := by
  have moves : ¬ ((some factory).isNone || (t.find? n).isSome) := by
    simp [unbound]
  apply h.update (fun _ => cell_stage rfl unbound) (fun m => ?_)
    (fun m => c.provisional_stage n m factory)
  · rw [Cache.stage, Tiers.stage, if_neg moves]
    apply enlist
    · exact h.registered
    · exact ⟨listed.same, listed.nodup⟩
  · rw [Cache.bound_stage]
    exact h.bound_own n m

theorem remove (h : t.Mirrors c) (listed : t.Listed) (n : Name) :
    (t.remove n).Mirrors (c.remove n) := by
  apply h.update (fun _ => cell_remove) (fun m => NameMap.getElem?_erase c.bound n m)
    (fun m => c.provisional_remove n m)
  rw [listed.registered_remove, ← h.registered]
  rfl

theorem clear (t : Tiers) (c : Cache) : t.clear.Mirrors c.clear := by
  have nothing (n : Name) : t.clear.cell n = ⟨none, none, none, false⟩ := by
    simp [cell, Tiers.clear]
  refine ⟨fun n => ?_, fun n => ?_, rfl⟩
  · simp [nothing, Cache.clear]
  · simp [nothing, Cache.clear, Cell.provisional?]

/-- An early reference is what the cache has for the name. -/
theorem provisional_of_early (h : t.Mirrors c) (sound : t.Sound) (early : t.early.contains n) :
    ∃ o, c.provisional[n]? = some (.early o) := by
  have present := (sound.cell n).present.2.1
  have entry := h.provisional n
  cases hn : t.early[n]? with
  | none =>
    have there := Std.ExtTreeMap.contains_iff_mem.mp early
    exact absurd (Std.ExtTreeMap.mem_iff_isSome_getElem?.mp there) (by simp [hn])
  | some object =>
    cases object with
    | none => exact absurd hn present
    | some o =>
      refine ⟨o, ?_⟩
      rw [entry, Cell.provisional?, cell, hn]
      rfl

/-- Without an early reference it is the staged factory, if there is one. -/
theorem provisional_of_not_early (h : t.Mirrors c) (early : (t.cell n).early = none) :
    c.provisional[n]? = (t.factories[n]?).join.map .staged := by
  rw [h.provisional, Cell.provisional?, early]
  rfl

/-- A factory that is called is taken out; without one, nothing is there to be taken out. -/
theorem withdraw (h : t.Mirrors c) (early : (t.cell n).early = none) :
    Mirrors { t with factories := t.factories.erase n } (c.unstage n) := by
  have gone : Cell.provisional? { t.cell n with factory := none } = none := by
    rw [Cell.provisional?, early]
    rfl
  refine h.update (fun _ => cell_withdraw) (h.bound_own n) (fun m => ?_) ?_
  · rw [gone]
    exact NameMap.getElem?_erase c.provisional n m
  · exact h.registered

theorem withdraw_none (h : t.Mirrors c) (staged : t.factories[n]? = none) :
    Mirrors { t with factories := t.factories.erase n } c := by
  have same : ({ t.cell n with factory := none } : Cell) = t.cell n := by
    rw [cell, staged]
  refine h.update (fun _ => cell_withdraw) (h.bound_own n) (fun m => ?_) h.registered
  rw [same]
  exact h.provisional_own n m

/-- An early reference answers a look-up, or else a staged factory is taken out to be called. -/
theorem consult (h : t.Mirrors c) (sound : t.Sound) (n : Name) (early inCreation : Bool) :
    (t.consult n early inCreation).Mirrors (c.access (.consult n early inCreation)) := by
  rw [Cache.access, Cache.lookup, Tiers.consult, h.find?]
  cases c.find? n with
  | some o => exact h
  | none =>
    cases early && inCreation with
    | false => exact h
    | true =>
      by_cases promoted : t.early.contains n
      · obtain ⟨o, entry⟩ := h.provisional_of_early sound promoted
        simp only [promoted, entry, Bool.or_true, if_true]
        exact h
      · have unpromoted := cell_early promoted
        have entry := h.provisional_of_not_early unpromoted
        rw [if_neg (by simp [promoted]), if_pos rfl, entry]
        cases hn : t.factories[n]? with
        | none => exact h.withdraw_none hn
        | some staged =>
          cases staged with
          | none => exact absurd hn (sound.cell n).present.2.2
          | some factory => exact h.withdraw unpromoted

theorem isRegistered (h : t.Mirrors c) (listed : t.Listed) (n : Name) :
    c.isRegistered n = t.index.contains n := by
  rw [Cache.isRegistered, h.registered, Bool.eq_iff_iff, List.contains_iff_mem,
    Std.ExtTreeSet.contains_iff_mem]
  exact listed.same n

/-- An entry that is put in for a name is what the cache has for it then. -/
theorem provide {u : Tiers} {own : Cell} {p : Provisional} (h : t.Mirrors c)
    (cells : ∀ m, u.cell m = if m = n then own else t.cell m)
    (object : own.object = (t.cell n).object) (entry : own.provisional? = some p)
    (registered : u.registered = t.registered) : u.Mirrors (c.provide n p) := by
  refine h.update cells (fun m => ?_) (fun m => ?_) (h.registered.trans registered.symm)
  · rw [object]
    exact h.bound_own n m
  · rw [entry]
    exact NameMap.getElem?_insert c.provisional n m p

theorem settle (h : t.Mirrors c) (sound : t.Sound) (n : Name) (factory : CallbackId)
    (made : Option Object) :
    (t.settle n (some factory) made).Mirrors (c.settle n factory made).cache := by
  unfold Cache.settle Tiers.settle
  rw [h.find?, h.isRegistered sound.listed]
  cases c.find? n with
  | some o => exact h
  | none =>
    by_cases promoted : t.early.contains n
    · obtain ⟨o, entry⟩ := h.provisional_of_early sound promoted
      simp only [promoted, entry, Bool.or_true, Bool.true_or, if_true]
      exact h
    · have unpromoted := cell_early promoted
      have entry := h.provisional_of_not_early unpromoted
      have real := (sound.cell n).present.2.2
      by_cases known : t.index.contains n
      · -- What the factory has made is kept, or else the factory, unless another one is staged.
        simp only [Option.isSome_none, promoted, known, Bool.or_false, Bool.not_true, if_false,
          Bool.false_eq_true, if_true]
        cases made with
        | none =>
          cases staged : t.factories[n]? with
          | none =>
            rw [entry, staged]
            refine h.provide (fun _ => cell_restage) rfl ?_ rfl
            rw [Cell.provisional?, unpromoted, staged]
            rfl
          | some other =>
            cases other with
            | none => exact absurd staged real
            | some f =>
              have same : ({ t.cell n with
                  factory := some (t.factories[n]?.getD (some factory)) } : Cell) = t.cell n := by
                rw [cell, staged]
                rfl
              rw [entry, staged]
              refine h.update (fun _ => cell_restage) (h.bound_own n) (fun m => ?_) h.registered
              rw [same]
              exact h.provisional_own n m
        | some o =>
          rw [entry]
          cases (t.factories[n]?).join with
          | none => exact h.provide (fun _ => cell_promote) rfl rfl rfl
          | some f => exact h.provide (fun _ => cell_promote) rfl rfl rfl
      · have unstaged : t.factories[n]? = none := by
          apply Option.not_isSome_iff_eq_none.mp
          intro staged
          exact known ((sound.cell n).indexed (.inr (.inr staged)))
        rw [entry, unstaged]
        simp only [known, Bool.not_false, Bool.or_true, if_true]
        cases made with
        | none => exact h
        | some o => exact h

theorem access (h : t.Mirrors c) (sound : t.Sound) (a : Cache.Access) :
    (t.access a).Mirrors (c.access a) := by
  cases a with
  | register n object =>
    have bound : c.bound[n]?.isNone = !t.objects.contains n := by
      rw [h.bound, Std.ExtTreeMap.contains_eq_isSome_getElem?, Option.not_isSome]
      rfl
    cases object with
    | none => exact h
    | some o =>
      rw [Cache.access, Tiers.access, Tiers.register, bound]
      cases t.objects.contains n with
      | true => exact h
      | false => exact h.bind sound.listed n (some o)
  | bind n object => exact h.bind sound.listed n (some object)
  | consult n early inCreation => exact h.consult sound n early inCreation
  | settle n factory made => exact h.settle sound n factory made
  | stage n factory =>
    cases factory with
    | none => exact h
    | some f =>
      cases hn : t.find? n with
      | none =>
        have unbound := (h.find? n).symm.trans hn
        rw [Cache.access, unbound]
        exact h.stage sound.listed f hn
      | some o =>
        have bound := (h.find? n).symm.trans hn
        rw [Cache.access, Tiers.access, Tiers.stage, bound, hn]
        exact h
  | remove n => exact h.remove sound.listed n
  | clear => exact clear t c
  | leaves => exact h

end Mirrors

end Tiers

/-- A name is bound or has something provisional, and only if it is registered, which it is once. -/
structure Cache.Sound (c : Cache) : Prop where
  apart : ∀ n : Name, c.bound[n]? = none ∨ c.provisional[n]? = none
  registered : ∀ n : Name, c.bound[n]?.isSome ∨ c.provisional[n]?.isSome → n ∈ c.registered
  nodup : c.registered.Nodup
  present : ∀ n : Name, c.bound[n]? ≠ some none

theorem Tiers.Mirrors.sound {t : Tiers} {c : Cache} (h : t.Mirrors c) (sound : t.Sound) :
    c.Sound := by
  have absent {n : Name} (early : (t.cell n).early = none) (factory : (t.cell n).factory = none) :
      c.provisional[n]? = none := by
    rw [h.provisional, Cell.provisional?, early, factory]
    rfl
  refine ⟨fun n => ?_, fun n there => ?_, ?_, fun n => ?_⟩
  · obtain ⟨early, factory, -⟩ := (sound.cell n).apart
    rw [h.bound]
    by_cases bound : (t.cell n).object = none
    · exact .inl bound
    · exact .inr (absent (early.resolve_left bound) (factory.resolve_left bound))
  · rw [h.registered, sound.listed.same, ← Std.ExtTreeSet.contains_iff_mem]
    apply (sound.cell n).indexed
    rcases there with bound | provisional
    · rw [h.bound] at bound
      exact .inl bound
    · right
      by_cases early : (t.cell n).early = none
      · right
        apply Option.isSome_iff_ne_none.mpr
        intro factory
        rw [absent early factory] at provisional
        cases provisional
      · exact .inl (Option.isSome_iff_ne_none.mpr early)
  · rw [h.registered]
    exact sound.listed.nodup
  · rw [h.bound]
    exact (sound.cell n).present.1

namespace Life

/-- The tiers at a point of a life, after all that its steps have done with the cache. -/
def tiers (l : Life) : Nat → Tiers
  | 0 => {}
  | k + 1 => (l.tiers k).access (l.access k)

theorem sound_tiers (l : Life) (k : Nat) : (l.tiers k).Sound := by
  induction k with
  | zero => exact .empty
  | succ k ih => exact ih.access (l.access k)

theorem mirrors_tiers (l : Life) (k : Nat) :
    (l.tiers k).Mirrors (l.after k).world.registry.cache := by
  induction k with
  | zero =>
    rw [after, l.registry_start]
    exact Tiers.Mirrors.clear {} {}
  | succ k ih =>
    rw [l.cache_succ k]
    exact ih.access (l.sound_tiers k) (l.access k)

/-- At every point of a life the tiers are apart, hold only what is there, and have their names in
the index, and the cache is what the tiers hold. The names that are registered are those of the
index, each of them once, and the count is their number. -/
theorem tiers_at_every_point (l : Life) (k : Nat) :
    (l.tiers k).Sound ∧ (l.tiers k).Mirrors (l.after k).world.registry.cache ∧
    (l.after k).world.registry.cache.Sound ∧
    ∃ names : List Name,
      (l.after k).world.registry.request .names = (l.after k).world.registry.answer (.names names) ∧
      (∀ n, n ∈ names ↔ n ∈ (l.tiers k).index) ∧ names.Nodup ∧
      (l.after k).world.registry.request .count =
        (l.after k).world.registry.answer (.number names.toFinset.card) := by
  have sound := l.sound_tiers k
  have mirrors := l.mirrors_tiers k
  have cache := mirrors.sound sound
  refine ⟨sound, mirrors, cache, _, rfl, fun n => ?_, cache.nodup, ?_⟩
  · rw [mirrors.registered]
    exact sound.listed.same n
  · rw [List.toFinset_card_of_nodup cache.nodup]
    rfl

end Life

end Singletons
