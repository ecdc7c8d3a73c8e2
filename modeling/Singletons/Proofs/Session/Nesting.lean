import Singletons.Proofs.Session.Return
/-!
# How calls nest

Every operation that waits for a callback has waited since it called it. Two operations that wait
are nested: the one that called last goes on first.
-/

namespace Singletons

namespace Session

variable {env : Environment} {s t : Session} {stack : List Frame} {waiting : Waiting}

/-- The next step calls a callback for an operation that waits for it. -/
def Calls (s : Session) (waiting : Waiting) : Prop :=
  ∃ a rest id, s.Move a rest ∧ a.progress = .calling id waiting

/-- Above these frames a program waits that is run for an operation. -/
def Above (frames stack : List Frame) (waiting : Waiting) : Prop :=
  ∃ upper next id n, frames = upper ++ ⟨next, .call id n waiting⟩ :: stack

theorem above_of_cons {frame : Frame} {frames : List Frame}
    (h : Above (frame :: frames) stack waiting) :
    Above frames stack waiting ∨ (∃ id n, frame.cause = .call id n waiting) ∧ frames = stack := by
  obtain ⟨upper, next, id, n, split⟩ := h
  cases upper with
  | nil =>
    obtain ⟨rfl, rfl⟩ := List.cons.inj split
    exact .inr ⟨⟨id, n, rfl⟩, rfl⟩
  | cons _ upper =>
    obtain ⟨-, rest⟩ := List.cons.inj split
    exact .inl ⟨upper, next, id, n, rest⟩

theorem Awaits.above (h : s.Awaits stack waiting)
    (going : ∀ cause result, s.control ≠ .ended cause result) : Above s.stack stack waiting := by
  cases h with
  | running h => exact ⟨_, _, _, _, h⟩
  | ended hc _ => exact absurd hc (going _ _)

theorem Above.awaits (h : Above s.stack stack waiting) : s.Awaits stack waiting := by
  obtain ⟨_, _, _, _, h⟩ := h
  exact .running h

theorem Above.length_lt {frames : List Frame} (h : Above frames stack waiting) :
    stack.length < frames.length := by
  obtain ⟨upper, next, id, n, rfl⟩ := h
  rw [List.length_append, List.length_cons]
  omega

theorem Awaits.length_le (h : s.Awaits stack waiting) : stack.length ≤ s.stack.length := by
  cases h with
  | running h => exact Nat.le_of_lt (Above.length_lt ⟨_, _, _, _, h⟩)
  | ended _ hs => rw [hs]

theorem Awaits.mem_waiting (h : s.Awaits stack waiting) : waiting ∈ s.waiting := by
  rw [Session.waiting, List.mem_append]
  cases h with
  | running h => exact .inr (by simp [h, Cause.waiting])
  | ended hc _ => exact .inl (by simp [hc, Control.waiting, Cause.waiting])

/-- An operation that waits when a program has begun has waited before, or runs the program. -/
theorem Awaits.of_enter {w : World} {cause : Cause} {frames : List Frame} {history : List Event}
    {p : Program} (h : (enter w cause frames history p).Awaits stack waiting) :
    Above frames stack waiting ∨ (∃ id n, cause = .call id n waiting) ∧ frames = stack := by
  induction p generalizing cause frames history with
  | finish result =>
    cases h with
    | running h => exact .inl ⟨_, _, _, _, h⟩
    | ended hc hs =>
      obtain ⟨rfl, -⟩ := Control.ended.inj hc
      exact .inr ⟨⟨_, _, rfl⟩, hs⟩
  | perform op next => exact above_of_cons (h.above fun _ _ hc => by cases hc)
  | block body next ih _ =>
    rcases ih h with below | ⟨⟨_, _, other⟩, -⟩
    · exact above_of_cons below
    · cases other

theorem Awaits.of_turn {turned : Turn} (h : (s.turn env turned).Awaits stack waiting) :
    Above s.stack stack waiting ∨
      (∃ id, turned.progress = .calling id waiting) ∧ s.stack = stack := by
  obtain ⟨w, progress, events⟩ := turned
  cases progress with
  | answered reply => exact .inl (h.above fun _ _ hc => by cases hc)
  | tearing agenda => exact .inl (h.above fun _ _ hc => by cases hc)
  | calling id own =>
    rcases of_enter h with below | ⟨⟨id', n, same⟩, hs⟩
    · exact .inl below
    · obtain ⟨-, -, rfl⟩ := Cause.call.inj same
      exact .inr ⟨⟨id, rfl⟩, hs⟩

/-- An operation that waits has waited before the last step, or has called in it. -/
theorem Awaits.back (h : t.Awaits stack waiting) (hs : s.step env = some t) :
    s.Awaits stack waiting ∨ s.Calls waiting ∧ s.stack = stack := by
  obtain ⟨w, control, frames, history⟩ := s
  cases control with
  | perform op =>
    obtain rfl := Option.some.inj hs
    rcases h.of_turn with below | ⟨⟨id, calling⟩, same⟩
    · exact .inl (Above.awaits below)
    · cases op with
      | registry q => exact .inr ⟨⟨_, _, id, .request rfl, calling⟩, same⟩
      | part q => exact .inr ⟨⟨_, _, id, .part rfl, calling⟩, same⟩
      | log q => cases calling
      | router q => cases calling
  | teardown agenda =>
    obtain rfl := Option.some.inj hs
    rcases h.of_turn with below | ⟨⟨id, calling⟩, same⟩
    · exact .inl (Above.awaits below)
    · exact .inr ⟨⟨_, _, id, .teardown rfl, calling⟩, same⟩
  | ended cause result =>
    cases cause with
    | owner => simp [Session.step] at hs
    | block =>
      obtain rfl := Option.some.inj hs
      exact .inl (Above.awaits (h.above fun _ _ hc => by cases hc))
    | call id' n' own =>
      obtain rfl := Option.some.inj hs
      rcases h.of_turn with below | ⟨⟨id, calling⟩, same⟩
      · exact .inl (Above.awaits below)
      · exact .inr ⟨⟨_, _, id, .resume rfl rfl, calling⟩, same⟩
  | answered reply =>
    cases frames with
    | nil => simp [Session.step] at hs
    | cons frame rest =>
      obtain rfl := Option.some.inj hs
      rcases h.of_enter with below | ⟨⟨id, n, cause⟩, rfl⟩
      · obtain ⟨upper, next, id, n, split⟩ := below
        exact .inl (Above.awaits ⟨frame :: upper, next, id, n, congrArg (frame :: ·) split⟩)
      · obtain ⟨next, _⟩ := frame
        obtain rfl := cause
        exact .inl (Above.awaits ⟨[], next, id, n, rfl⟩)

/-- Once its callback has ended, the operation does not wait for it any more. -/
theorem not_awaits_of_ended {id : CallbackId} {n : Nat} {own : Waiting}
    {result : Except Thrown Returned} (hc : s.control = .ended (.call id n own) result)
    (hs : s.step env = some t) : ¬ t.Awaits s.stack waiting := by
  intro h
  obtain ⟨w, control, frames, history⟩ := s
  obtain rfl : control = .ended (.call id n own) result := hc
  obtain rfl := Option.some.inj hs
  rcases h.of_turn with below | ⟨⟨id', calling⟩, -⟩
  · exact absurd below.length_lt (Nat.lt_irrefl _)
  · have called : (w.registry.resume result own).progress = .calling id' waiting := calling
    have silent := w.registry.waiting_resume result own
    rw [called] at silent
    cases silent

end Session

namespace Life

variable {l : Life} {i j k : Nat} {waiting : Waiting} {ended : Except Thrown Returned}

/-- An operation that waits at a point called at an earlier one, and has waited ever since. -/
theorem exists_calls {stack : List Frame} (h : (l.after k).Awaits stack waiting) :
    ∃ j < k, (l.after j).Calls waiting ∧ (l.after j).stack = stack ∧
      ∀ i, j < i → i ≤ k → (l.after i).Awaits stack waiting := by
  induction k with
  | zero =>
    rcases Session.Awaits.of_enter h with ⟨_, _, _, _, nothing⟩ | ⟨⟨_, _, other⟩, -⟩
    · simp at nothing
    · cases other
  | succ k ih =>
    have before : (l.after k).Awaits stack waiting ∨
        (l.after k).Calls waiting ∧ (l.after k).stack = stack := by
      cases hs : (l.after k).step l.environment with
      | none => exact .inl (after_halted hs ▸ h)
      | some t => exact (after_succ hs ▸ h).back hs
    rcases before with still | ⟨calls, same⟩
    · obtain ⟨j, hj, calls, same, waits⟩ := ih still
      refine ⟨j, Nat.lt_succ_of_lt hj, calls, same, fun i hi le => ?_⟩
      rcases Nat.le_succ_iff.mp le with le | rfl
      · exact waits i hi le
      · exact h
    · refine ⟨k, k.lt_succ_self, calls, same, fun i hi le => ?_⟩
      rwa [Nat.le_antisymm le hi]

theorem exists_calls_of_ended {id : CallbackId} {m : Nat}
    (hc : (l.after i).control = .ended (.call id m waiting) ended) :
    ∃ j < i, (l.after j).Calls waiting ∧ l.Ends j i waiting ended := by
  obtain ⟨j, hj, calls, same, waits⟩ := exists_calls (.ended hc rfl)
  exact ⟨j, hj, calls, hj, same ▸ waits, ⟨id, m, hc⟩, same.symm⟩

namespace Ends

variable {i' j' : Nat} {waiting' : Waiting} {ended' : Except Thrown Returned}

/-- Whatever begins while an operation waits ends before it goes on. -/
theorem nested (outer : l.Ends j i waiting ended) (inner : l.Ends j' i' waiting' ended')
    (after : j < j') (before : j' < i)
    (going : ∀ cause result, (l.after j').control ≠ .ended cause result) : i' < i := by
  apply Classical.byContradiction
  intro late
  have higher := ((outer.waits j' after (Nat.le_of_lt before)).above going).length_lt
  have still := (inner.waits i before (Nat.le_of_not_lt late)).length_le
  rw [outer.stack] at still
  exact absurd higher (Nat.not_lt.mpr still)

private theorem not_lt_of_ends (first : l.Ends j i waiting ended)
    (second : l.Ends j i' waiting' ended') : ¬ i < i' := by
  intro earlier
  obtain ⟨id, m, control⟩ := first.control
  have moves := Session.isSome_step l.environment (congrArg Control.passes control)
  have gone : ¬ (l.after (i + 1)).Awaits (l.after i).stack waiting' :=
    Session.not_awaits_of_ended control (step_after moves)
  rw [first.stack] at gone
  exact gone (second.waits (i + 1) (Nat.lt_succ_of_lt first.later) earlier)

/-- An operation waits once, for as long as its callback runs. -/
theorem end_unique (first : l.Ends j i waiting ended) (second : l.Ends j i' waiting' ended') :
    i = i' :=
  Nat.le_antisymm (Nat.le_of_not_lt (not_lt_of_ends second first))
    (Nat.le_of_not_lt (not_lt_of_ends first second))

private theorem not_lt_of_begins (first : l.Ends j i waiting ended)
    (second : l.Ends j' i waiting' ended')
    (going : ∀ cause result, (l.after j').control ≠ .ended cause result) : ¬ j < j' := by
  intro earlier
  have higher := ((first.waits j' earlier (Nat.le_of_lt second.later)).above going).length_lt
  rw [← first.stack, second.stack] at higher
  exact absurd higher (Nat.lt_irrefl _)

/-- Where a callback ends, just one operation goes on. -/
theorem begin_unique (first : l.Ends j i waiting ended) (second : l.Ends j' i waiting' ended')
    (going : ∀ cause result, (l.after j).control ≠ .ended cause result)
    (going' : ∀ cause result, (l.after j').control ≠ .ended cause result) : j = j' :=
  Nat.le_antisymm (Nat.le_of_not_lt (not_lt_of_begins second first going))
    (Nat.le_of_not_lt (not_lt_of_begins first second going'))

end Ends

end Life

end Singletons
