import Singletons.Proofs.Session.Life
/-!
# Runs point by point

A life is the sequence of the points that it passes. What some steps raise and others lower stands
at a point exactly if it was raised before the point and not lowered since.
-/

namespace Singletons

/-- From a point without a next one, nothing is left to do with the registry. -/
theorem Session.passes_of_halted {env : Environment} {s : Session} (h : s.step env = none) :
    s.control.passes := by
  obtain ⟨w, control, stack, history⟩ := s
  cases control with
  | perform op => cases h
  | teardown agenda => cases h
  | ended cause result =>
    cases cause with
    | call id n waiting => cases h
    | _ => rfl
  | answered reply => rfl

/-- A step that has to do with the registry is never the last one. -/
theorem Session.isSome_step (env : Environment) {s : Session} (h : s.control.passes = false) :
    (s.step env).isSome := by
  rw [Option.isSome_iff_ne_none]
  intro halted
  cases h.symm.trans (passes_of_halted halted)

namespace Life

variable {l : Life}

theorem after_succ {k : Nat} {t : Session} (h : (l.after k).step l.environment = some t) :
    l.after (k + 1) = t := by
  rw [after, h]
  rfl

theorem after_halted {k : Nat} (h : (l.after k).step l.environment = none) :
    l.after (k + 1) = l.after k := by
  rw [after, h]
  rfl

section Raised

variable {raises lowers : Session → Prop}

/-- Raised by a step before the point and lowered by none since then. -/
def Raised (l : Life) (raises lowers : Session → Prop) (k : Nat) : Prop :=
  ∃ j < k, raises (l.after j) ∧ ∀ i, j < i → i < k → ¬ lowers (l.after i)

theorem not_raised_zero : ¬ l.Raised raises lowers 0 := by
  rintro ⟨j, hj, -⟩
  exact absurd hj j.not_lt_zero

theorem raised_succ {k : Nat} : l.Raised raises lowers (k + 1) ↔
    raises (l.after k) ∨ (l.Raised raises lowers k ∧ ¬ lowers (l.after k)) := by
  constructor
  · rintro ⟨j, hj, raised, kept⟩
    rcases Nat.lt_succ_iff_lt_or_eq.mp hj with hj | rfl
    · exact .inr ⟨⟨j, hj, raised, fun i hi hk => kept i hi (Nat.lt_succ_of_lt hk)⟩,
        kept k hj k.lt_succ_self⟩
    · exact .inl raised
  · rintro (raised | ⟨⟨j, hj, raised, kept⟩, standing⟩)
    · exact ⟨k, k.lt_succ_self, raised, fun i hi hk => by omega⟩
    · refine ⟨j, Nat.lt_succ_of_lt hj, raised, fun i hi hk => ?_⟩
      rcases Nat.lt_succ_iff_lt_or_eq.mp hk with hk | rfl
      · exact kept i hi hk
      · exact standing

/-- Nothing is raised or lowered after the last step. -/
theorem raised_halted {k : Nat} (h : (l.after k).step l.environment = none)
    (moves : ∀ s, raises s ∨ lowers s → (s.step l.environment).isSome) :
    l.Raised raises lowers (k + 1) ↔ l.Raised raises lowers k := by
  have neither : ¬ (raises (l.after k) ∨ lowers (l.after k)) := by
    intro hk
    have := moves _ hk
    simp [h] at this
  rw [not_or] at neither
  rw [raised_succ]
  simp [neither.1, neither.2]

/-- What a step makes hold by raising it, and keeps unless it lowers it, is what stands raised. -/
theorem holds_iff_raised (holds : Session → Prop) (start : ¬ holds l.start)
    (step : ∀ s t, l.Reaches s → s.step l.environment = some t →
      (holds t ↔ raises s ∨ (holds s ∧ ¬ lowers s)))
    (moves : ∀ s, raises s ∨ lowers s → (s.step l.environment).isSome) (k : Nat) :
    holds (l.after k) ↔ l.Raised raises lowers k := by
  induction k with
  | zero => exact iff_of_false start not_raised_zero
  | succ k ih =>
    cases hs : (l.after k).step l.environment with
    | none => rw [after_halted hs, raised_halted hs moves, ih]
    | some t => rw [raised_succ, after_succ hs, step _ _ (l.reaches_after k) hs, ih]

end Raised

end Life

end Singletons
