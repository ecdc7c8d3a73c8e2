import Singletons.Proofs.Session.Execution
import Singletons.Proofs.Session.Trace
/-!
# Flags that are left behind

A name is flagged by a creation that begins while the name is not excluded, and struck by a factory
for it that ends while the name is not excluded. An exclusion in between lets the creation end with
the name still flagged, and a later creation of it is refused for that.
-/

namespace Singletons

namespace Session

/-- The next step calls a factory for the name. -/
def Begins (s : Session) (n : Name) : Prop :=
  ∃ q, s.control = .perform (.registry q) ∧ (s.world.registry.request q).creates = [n]

/-- A factory for the name has ended, and the next step goes on after it. -/
def Finishes (s : Session) (n : Name) : Prop :=
  ∃ id k outermost bare ended,
    s.control = .ended (.call id k (.creating n outermost bare)) ended

def IsFlagged (s : Session) (n : Name) : Prop := s.world.registry.flags.isInCreation n = true

/-- Whether the name is subject to the check against creating it twice at once. -/
def IsChecked (s : Session) (n : Name) : Prop := s.world.registry.flags.isExcluded n = false

variable {env : Environment} {s t : Session} {n : Name}

theorem Begins.isSome_step (h : s.Begins n) : (s.step env).isSome := by
  obtain ⟨w, control, stack, history⟩ := s
  obtain ⟨q, rfl, -⟩ := h
  rfl

theorem Finishes.isSome_step (h : s.Finishes n) : (s.step env).isSome := by
  obtain ⟨w, control, stack, history⟩ := s
  obtain ⟨id, k, outermost, bare, ended, rfl⟩ := h
  rfl

theorem not_begins {a : Control} (hc : s.control = a) (h : ∀ q, a ≠ .perform (.registry q)) :
    ¬ s.Begins n := by
  rintro ⟨q, hq, -⟩
  exact h q (hc.symm.trans hq)

theorem not_finishes {a : Control} (hc : s.control = a)
    (h : ∀ id k w ended, a ≠ .ended (.call id k w) ended) : ¬ s.Finishes n := by
  rintro ⟨id, k, outermost, bare, ended, hf⟩
  exact h _ _ _ _ (hc.symm.trans hf)

theorem begins_iff {q : Request} (hc : s.control = .perform (.registry q)) :
    s.Begins n ↔ (s.world.registry.request q).creates = [n] := by
  constructor
  · rintro ⟨q', hq, creates⟩
    obtain rfl : q = q' := Operation.registry.inj (Control.perform.inj (hc.symm.trans hq))
    exact creates
  · exact fun creates => ⟨q, hc, creates⟩

theorem finishes_iff {id : CallbackId} {k : Nat} {w : Waiting} {ended : Except Thrown Returned}
    (hc : s.control = .ended (.call id k w) ended) : s.Finishes n ↔ w.creates = [n] := by
  constructor
  · rintro ⟨id', k', outermost, bare, ended', hf⟩
    obtain ⟨hw, -⟩ := Control.ended.inj (hc.symm.trans hf)
    obtain ⟨-, -, rfl⟩ := Cause.call.inj hw
    rfl
  · intro creates
    cases w with
    | creating m outermost bare =>
      obtain rfl := (List.cons.inj creates).1
      exact ⟨id, k, outermost, bare, ended, hc⟩
    | promoting m f => cases creates
    | releasing m rest => cases creates

/-- All that raises and lowers the flag of a name. -/
theorem Public.isFlagged_step (hp : s.Public) (hs : s.step env = some t) :
    t.IsFlagged n ↔ (s.Begins n ∧ s.IsChecked n) ∨
      (s.IsFlagged n ∧ ¬ (s.Finishes n ∧ s.IsChecked n)) := by
  obtain ⟨a, rest, move, hr, -⟩ := step_cases hs
  rw [IsFlagged, hr]
  cases move with
  | pass hc =>
    have quiet : ¬ s.Begins n := by
      rintro ⟨q, hq, -⟩
      simp [hq, Control.passes] at hc
    have running : ¬ s.Finishes n := by
      rintro ⟨id, k, outermost, bare, ended, hf⟩
      simp [hf, Control.passes] at hc
    simp only [quiet, running, false_and, false_or, not_false_eq_true, and_true]
    rfl
  | @request q hc =>
    have running : ¬ s.Finishes n := not_finishes hc fun _ _ _ _ h => by cases h
    rw [begins_iff hc]
    simp only [running, false_and, not_false_eq_true, and_true]
    rcases s.world.registry.request_creates q with
      ⟨flags, none⟩ | ⟨m, value, rfl, flags, none⟩ | ⟨m, -, -, flags, one⟩
    · simp [flags, none, IsFlagged]
    · simp [flags, none, IsFlagged, Flags.setExcluded, Flags.isInCreation]
    · rw [flags, one, Flags.isInCreation_mark, Bool.or_eq_true, or_comm]
      simp only [IsFlagged, IsChecked, Bool.and_eq_true, decide_eq_true_eq, Bool.not_eq_true',
        List.cons.injEq, and_true]
      refine or_congr_left ⟨?_, ?_⟩
      · rintro ⟨rfl, checked⟩
        exact ⟨rfl, checked⟩
      · rintro ⟨rfl, checked⟩
        exact ⟨rfl, checked⟩
  | part hc => exact absurd (hp.operation _ hc) (by simp [Operation.isPublic])
  | @teardown agenda hc =>
    have quiet : ¬ s.Begins n := not_begins hc fun _ h => by cases h
    have running : ¬ s.Finishes n := not_finishes hc fun _ _ _ _ h => by cases h
    simp only [quiet, running, false_and, false_or, not_false_eq_true, and_true,
      (s.world.registry.teardown_creates agenda).1]
    rfl
  | @resume id k w ended _ hc _ =>
    have quiet : ¬ s.Begins n := not_begins hc fun _ h => by cases h
    rw [finishes_iff hc]
    simp only [quiet, false_and, false_or]
    rcases (s.world.registry.resume_creates ended w).2 with ⟨none, flags⟩ | ⟨m, one, flags⟩
    · simp [flags, none, IsFlagged]
    · rw [flags, one, Flags.isInCreation_unmark, Bool.and_eq_true]
      refine and_congr_right fun _ => ?_
      simp only [IsChecked, List.cons.injEq, and_true, Bool.or_eq_true, decide_eq_true_eq,
        not_and, Bool.not_eq_false]
      constructor
      · rintro (other | excluded) rfl
        · exact absurd rfl other
        · exact excluded
      · intro h
        by_cases same : m = n
        · exact .inr (same ▸ h same)
        · exact .inl (Ne.symm same)

/-- A factory that was called stays on the call stack until it has ended. -/
theorem mem_creating_step (hs : s.step env = some t) (on : n ∈ s.creating)
    (running : ¬ s.Finishes n) : n ∈ t.creating := by
  obtain ⟨a, rest, move, -, hw⟩ := step_cases hs
  rw [creating_of_waiting hw, List.mem_append]
  cases move with
  | pass hc => exact .inr on
  | request hc => exact .inr on
  | part hc => exact .inr on
  | teardown hc => exact .inr on
  | @resume id k w ended rest hc hrest =>
    rw [creating, hrest, List.flatMap_cons, List.mem_append] at on
    rcases on with top | below
    · refine absurd ((finishes_iff hc).mpr ?_) running
      cases w with
      | creating m outermost bare => rw [Waiting.creates, List.mem_singleton.mp top]
      | promoting m f => cases top
      | releasing m rest => cases top
    · exact .inr below

theorem Begins.mem_creating (h : s.Begins n) (hs : s.step env = some t) : n ∈ t.creating := by
  obtain ⟨a, rest, move, -, hw⟩ := step_cases hs
  rw [creating_of_waiting hw, List.mem_append]
  obtain ⟨q, hq, creates⟩ := h
  cases move with
  | @request q' hc =>
    obtain rfl := Operation.registry.inj (Control.perform.inj (hq.symm.trans hc))
    exact .inl (by simp [creates])
  | pass hc => simp [hq, Control.passes] at hc
  | part hc => cases hq.symm.trans hc
  | teardown hc => cases hq.symm.trans hc
  | resume hc _ => cases hq.symm.trans hc

end Session

namespace Life

/-- A creation of the name began at `j` while the name was checked, and one ended at `i` while it
was excluded, as did every other one up to the point `k`. -/
def LeavesFlag (l : Life) (n : Name) (k : Nat) : Prop :=
  ∃ j i, j < i ∧ i < k ∧ (l.after j).Begins n ∧ (l.after j).IsChecked n ∧ (l.after i).Finishes n ∧
    ∀ m, j < m → m < k → (l.after m).Finishes n → ¬ (l.after m).IsChecked n

variable {l : Life} {n : Name}

theorem isFlagged_iff_raised (k : Nat) : (l.after k).IsFlagged n ↔
    l.Raised (fun s => s.Begins n ∧ s.IsChecked n) (fun s => s.Finishes n ∧ s.IsChecked n) k := by
  refine holds_iff_raised (fun s => s.IsFlagged n) ?_ ?_ ?_ k
  · rw [Session.IsFlagged, registry_start]
    simp [Registry.ofConfig, Flags.isInCreation]
  · exact fun s t h hs => h.isPublic.isFlagged_step hs
  · rintro s (⟨begins, -⟩ | ⟨finishes, -⟩)
    · exact begins.isSome_step
    · exact finishes.isSome_step

/-- A factory stays on the call stack up to a point before which it does not end. -/
theorem mem_creating_after {j k : Nat} (begins : (l.after j).Begins n) (hj : j < k)
    (running : ∀ i, j < i → i < k → ¬ (l.after i).Finishes n) : n ∈ (l.after k).creating := by
  induction hj with
  | refl => exact begins.mem_creating (step_after begins.isSome_step)
  | @step k hk ih =>
    have on := ih fun i hi hik => running i hi (Nat.lt_succ_of_lt hik)
    cases hs : (l.after k).step l.environment with
    | none => rw [after, hs]; exact on
    | some t =>
      rw [after_succ hs]
      exact Session.mem_creating_step hs on (running k hk k.lt_succ_self)

theorem exists_finishes {j k : Nat} (begins : (l.after j).Begins n) (hj : j < k)
    (idle : n ∉ (l.after k).creating) : ∃ i, j < i ∧ i < k ∧ (l.after i).Finishes n := by
  refine Classical.byContradiction fun none => idle (mem_creating_after begins hj ?_)
  exact fun i hi hik finishes => none ⟨i, hi, hik, finishes⟩

theorem isFlagged_idle_iff (k : Nat) (idle : n ∉ (l.after k).creating) :
    (l.after k).IsFlagged n ↔ l.LeavesFlag n k := by
  rw [isFlagged_iff_raised]
  constructor
  · rintro ⟨j, hj, ⟨begins, checked⟩, kept⟩
    obtain ⟨i, hji, hik, finishes⟩ := exists_finishes begins hj idle
    exact ⟨j, i, hji, hik, begins, checked, finishes,
      fun m hm hk ends still => kept m hm hk ⟨ends, still⟩⟩
  · rintro ⟨j, i, hji, hik, begins, checked, -, kept⟩
    exact ⟨j, Nat.lt_trans hji hik, ⟨begins, checked⟩, fun m hm hk h => kept m hm hk h.1 h.2⟩

/-- Where no factory of a name is on the call stack, the name is flagged exactly if a creation of it
has left its flag behind, and for just that a request to create it is refused as circular. -/
theorem flag_left_behind_iff (l : Life) {n : Name} {k : Nat} (idle : n ∉ (l.after k).creating) :
    ((l.after k).world.registry.flags.isInCreation n = true ↔ l.LeavesFlag n k) ∧
    ∀ f, (l.after k).control.creation? = some (n, some f) →
      (l.after k).world.registry.flags.isExcluded n = false →
      (l.after k).world.registry.cache.find? n = none →
      (l.after k).world.registry.destroying = false →
      ((∃ t, (l.after k).step l.environment = some t ∧ t.control = .answered (.ok (.creation
          (.report .currentlyInCreation (some (Refusal.inCreation.fault n)))))) ↔
        l.LeavesFlag n k) := by
  have flagged := isFlagged_idle_iff k idle
  refine ⟨flagged, fun f creates checked unbound standing => ?_⟩
  obtain ⟨q, hc, hq⟩ := Control.exists_request creates
  rw [← flagged]
  generalize l.after k = s at *
  constructor
  · rintro ⟨t, hs, answered⟩
    refine Classical.byContradiction fun free => ?_
    have allowed : (s.world.registry.flags.mark n).1 = true := by
      rw [Session.IsFlagged, Bool.not_eq_true] at free
      simp [Flags.mark, checked, free]
    -- The factory would be called, and a call is no answer.
    obtain ⟨waiting, calling⟩ := Registry.request_calling hq unbound standing allowed
    cases calling.symm.trans (Session.progress_of_answered hs hc answered)
  · intro flag
    have refused : (s.world.registry.flags.mark n).1 = false := by
      simpa [Flags.mark, checked, Session.IsFlagged] using flag
    obtain ⟨answered, -⟩ := Registry.request_underway hq unbound standing refused
    obtain ⟨t, hs, control, -⟩ := Session.step_request_answered l.environment hc answered
    exact ⟨t, hs, control⟩

/-- A factory that takes its own name out of the check and fails; once the name is back in, a
creation of it is refused although no factory is running. -/
theorem creation_refused_for_left_flag : ∃ (l : Life) (k : Nat) (t : Session),
    (l.after k).creating = [] ∧ l.LeavesFlag "a" k ∧
      (l.after k).control.creation? = some ("a", some "f") ∧
      (l.after k).world.registry.flags.isExcluded "a" = false ∧
      (l.after k).step l.environment = some t ∧ t.control = .answered (.ok (.creation
        (.report .currentlyInCreation (some (Refusal.inCreation.fault "a"))))) := by
  let create : Operation := .registry (.getOrCreate "a" (some "f"))
  let l := plain
    (.perform create fun _ => .perform (.registry (.setInCreation "a" true)) fun _ =>
      .perform create fun _ => .finish (.ok .nothing))
    (fun _ => .perform (.registry (.setInCreation "a" false)) fun _ =>
      .finish (.ok (.outcome (.failed none))))
    ⟨rfl, fun _ => ⟨rfl, fun _ => ⟨rfl, fun _ => trivial⟩⟩⟩ fun _ => ⟨rfl, fun _ => trivial⟩
  have none : (l.after 7).creating = [] := by decide +kernel
  have idle : "a" ∉ (l.after 7).creating := by simp [none]
  have creates : (l.after 7).control.creation? = some ("a", some "f") := by decide +kernel
  have flagged : (l.after 7).world.registry.flags.isInCreation "a" = true := by decide +kernel
  have checked : (l.after 7).world.registry.flags.isExcluded "a" = false := by decide +kernel
  have left := (l.flag_left_behind_iff idle).1.mp flagged
  obtain ⟨t, step, refused⟩ := ((l.flag_left_behind_iff idle).2 "f" creates checked
    (by decide +kernel) (by decide +kernel)).mpr left
  exact ⟨l, 7, t, none, left, creates, checked, step, refused⟩

end Life

end Singletons
