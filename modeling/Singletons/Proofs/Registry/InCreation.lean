import Singletons.Proofs.Session.Execution
import Singletons.Proofs.Session.Life
/-!
# Names in creation and the call stack

As long as no exclusion is changed for a name whose factory is running, a name is flagged as in
creation exactly while its factory is on the call stack and the name is not excluded.
-/

namespace Singletons

namespace Flags

/-- The flags agree with the names whose factories are on the call stack. -/
structure Mirrors (f : Flags) (names : List Name) : Prop where
  inCreation : ∀ n, f.isInCreation n = true ↔ f.isExcluded n = false ∧ n ∈ names
  once : ∀ n, f.isExcluded n = false → names.count n ≤ 1

namespace Mirrors

variable {f : Flags} {names : List Name} {n : Name}

theorem mark (h : f.Mirrors names) (allowed : (f.mark n).1 = true) :
    (f.mark n).2.Mirrors (n :: names) := by
  have free : f.isExcluded n = false → n ∉ names := by
    intro hx hn
    have marked := (h.inCreation n).mpr ⟨hx, hn⟩
    simp [Flags.mark, hx, marked] at allowed
  constructor
  · intro m
    rw [isInCreation_mark, isExcluded_mark, Bool.or_eq_true, h.inCreation]
    by_cases hm : m = n
    · subst m
      cases hx : f.isExcluded n <;> simp
    · simp [hm]
  · intro m hm
    rw [isExcluded_mark] at hm
    by_cases hmn : m = n
    · subst m
      have alone : (n :: names).count n = 1 := by
        rw [List.count_cons_self, List.count_eq_zero.mpr (free hm)]
      exact Nat.le_of_eq alone
    · rw [List.count_cons_of_ne (Ne.symm hmn)]
      exact h.once m hm

theorem unmark (h : f.Mirrors (n :: names)) : (f.unmark n).2.Mirrors names := by
  have gone : f.isExcluded n = false → n ∉ names := by
    intro hx hn
    have := h.once n hx
    have := List.count_pos_iff.mpr hn
    rw [List.count_cons_self] at *
    omega
  constructor
  · intro m
    rw [isInCreation_unmark, isExcluded_unmark, Bool.and_eq_true, h.inCreation]
    by_cases hm : m = n
    · subst m
      cases hx : f.isExcluded n with
      | true => simp
      | false => simp [gone hx]
    · simp [hm]
  · intro m hm
    rw [isExcluded_unmark] at hm
    exact Nat.le_trans (List.count_le_count_cons) (h.once m hm)

theorem setExcluded (h : f.Mirrors names) (off : n ∉ names) (value : Bool) :
    (f.setExcluded n value).Mirrors names := by
  have raw : ∀ m, (f.setExcluded n value).isInCreation m = f.isInCreation m := fun _ => rfl
  constructor
  · intro m
    rw [raw, h.inCreation, isExcluded_setExcluded]
    by_cases hm : m = n
    · subst m
      simp [off]
    · simp [hm]
  · intro m hm
    rw [isExcluded_setExcluded] at hm
    by_cases hmn : m = n
    · subst m
      rw [List.count_eq_zero.mpr off]
      exact Nat.zero_le 1
    · exact h.once m (by simpa [hmn] using hm)

end Mirrors

end Flags

/-- Nowhere on the way to a point is an exclusion changed for a name whose factory is running. -/
def Life.Untoggled (l : Life) (s : Session) : Prop :=
  ∀ t, l.Reaches t → t.Reaches l.environment s → ∀ n value,
    t.control = .perform (.registry (.setInCreation n value)) → n ∉ t.creating

namespace Session

theorem Public.mirrors_step {env : Environment} {s t : Session} (hp : s.Public)
    (h : s.world.registry.flags.Mirrors s.creating) (hs : s.step env = some t)
    (calm : ∀ n value, s.control = .perform (.registry (.setInCreation n value)) →
      n ∉ s.creating) :
    t.world.registry.flags.Mirrors t.creating := by
  obtain ⟨a, rest, move, hr, hw⟩ := step_cases hs
  rw [hr, creating_of_waiting hw]
  cases move with
  | pass hc => exact h
  | @request q hc =>
    rcases s.world.registry.request_creates q with
      ⟨flags, none⟩ | ⟨n, value, rfl, flags, none⟩ | ⟨n, _, allowed, flags, one⟩
    · rw [flags, none]
      exact h
    · rw [flags, none]
      exact h.setExcluded (calm n value hc) _
    · rw [flags, one]
      exact h.mark allowed
  | part hc => exact absurd (hp.operation _ hc) (by simp [Operation.isPublic])
  | @teardown agenda hc =>
    obtain ⟨flags, none⟩ := s.world.registry.teardown_creates agenda
    rw [flags, none]
    exact h
  | @resume _ _ w result _ _ hrest =>
    obtain ⟨none, hf⟩ := s.world.registry.resume_creates result w
    rw [creating, hrest, List.flatMap_cons] at h
    rw [none]
    rcases hf with ⟨hn, flags⟩ | ⟨n, hn, flags⟩
    · rw [hn] at h
      rw [flags]
      exact h
    · rw [hn] at h
      rw [flags]
      exact h.unmark

end Session

namespace Life

theorem untoggled_of_only {l : Life} {s : Session}
    (hp : l.program.Only fun op => ∀ n value, op ≠ .registry (.setInCreation n value))
    (hb : ∀ id k, (l.environment.body id k).Only
      fun op => ∀ n value, op ≠ .registry (.setInCreation n value)) : l.Untoggled s :=
  fun _ ht _ n value performs => absurd rfl ((ht.only hp hb).operation _ performs n value)

theorem Reaches.mirrors {l : Life} {s : Session} (h : l.Reaches s) (calm : l.Untoggled s) :
    s.world.registry.flags.Mirrors s.creating := by
  induction h with
  | refl =>
    have none : l.start.creating = [] := by rw [Session.creating, waiting_start]; rfl
    rw [none, registry_start]
    exact ⟨fun n => by simp [Registry.ofConfig, Flags.isInCreation], fun n _ => Nat.zero_le 1⟩
  | @next t u ht hs ih =>
    -- The way to the point before is part of the way, so nothing is toggled on it either.
    have before : l.Untoggled t := fun p hp hpt => calm p hp (.next hpt hs)
    exact (Reaches.isPublic ht).mirrors_step (ih before) hs (calm t ht (.next .refl hs))

/-- The flags mirror the call stack at every point of a life. A name that is not excluded is on it
at most once: while it is, a request to create it is refused without a call. When nothing waits for
a callback any more, no name is in creation. -/
theorem isInCreation_iff_callStack (l : Life) {s : Session} (h : l.Reaches s)
    (calm : l.Untoggled s) :
    (∀ n, s.world.registry.flags.isInCreation n = true ↔
      s.world.registry.flags.isExcluded n = false ∧ n ∈ s.creating) ∧
    (∀ n, s.world.registry.flags.isExcluded n = false → s.creating.count n ≤ 1) ∧
    (∀ q n f, s.control = .perform (.registry q) → q.creation? = some (n, some f) →
      s.world.registry.flags.isExcluded n = false → n ∈ s.creating →
      s.world.registry.cache.find? n = none → s.world.registry.destroying = false →
      ∃ t, s.step l.environment = some t ∧ t.control = .answered (.ok (.creation
          (.report .currentlyInCreation (some (Refusal.inCreation.fault n))))) ∧
        t.stack = s.stack ∧ t.world.registry = s.world.registry ∧
        t.world.calls = s.world.calls) ∧
    (s.waiting = [] → ∀ n, s.world.registry.flags.isInCreation n = false) := by
  have mirrors := h.mirrors calm
  refine ⟨mirrors.inCreation, mirrors.once, ?_, ?_⟩
  · intro q n f hc hq included running unbound standing
    have flagged := (mirrors.inCreation n).mpr ⟨included, running⟩
    have refused : (s.world.registry.flags.mark n).1 = false := by
      simp [Flags.mark, included, flagged]
    obtain ⟨answered, same⟩ := Registry.request_underway hq unbound standing refused
    obtain ⟨t, hs, control, stack, registry, calls⟩ :=
      Session.step_request_answered l.environment hc answered
    exact ⟨t, hs, control, stack, registry.trans same, calls⟩
  · intro idle n
    have none : s.creating = [] := by rw [Session.creating, idle]; rfl
    refine Bool.eq_false_iff.mpr fun flagged => ?_
    have := ((mirrors.inCreation n).mp flagged).2
    simp [none] at this

/-- A factory that asks for its own name is refused. -/
theorem creation_refused_underway : ∃ (l : Life) (s t : Session), l.Reaches s ∧ l.Untoggled s ∧
    "a" ∈ s.creating ∧ s.step l.environment = some t ∧
      t.control = .answered (.ok (.creation
        (.report .currentlyInCreation (some (Refusal.inCreation.fault "a"))))) ∧
      t.world.calls = s.world.calls := by
  let l := creation (.perform (.registry (.getOrCreate "a" (some "f"))) fun _ =>
    .finish (.ok (.outcome (.created (some "x"))))) ⟨rfl, fun _ => trivial⟩
  have calm : l.Untoggled (l.after 1) :=
    untoggled_of_only ⟨fun _ _ h => (by cases h), fun _ => trivial⟩
      fun _ _ => ⟨fun _ _ h => (by cases h), fun _ => trivial⟩
  have running : "a" ∈ (l.after 1).creating := List.mem_cons_self
  obtain ⟨t, step, answered, _, _, calls⟩ :=
    (l.isInCreation_iff_callStack (l.reaches_after 1) calm).2.2.1 _ "a" "f" rfl rfl rfl running
      rfl rfl
  exact ⟨l, l.after 1, t, l.reaches_after 1, calm, running, step, answered, calls⟩

end Life

end Singletons
