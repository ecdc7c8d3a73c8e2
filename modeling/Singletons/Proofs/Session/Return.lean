import Singletons.Proofs.Session.Execution
import Singletons.Proofs.Session.Trace
import Singletons.Proofs.Teardown.Dismantling
/-!
# From the beginning of an operation to its answer

An operation that waits for a callback stays on the stack below everything that the callback does,
and goes on when the callback has ended. A teardown goes on through any number of callbacks until
nothing is left to do; it is answered then, and never by what a callback throws.
-/

namespace Singletons

namespace Session

variable {env : Environment} {s t : Session} {stack : List Frame} {waiting : Waiting}

/-- Above these frames an operation waits for a callback that is running or has just ended. -/
inductive Awaits (stack : List Frame) (waiting : Waiting) (s : Session) : Prop where
  | running {frames : List Frame} {next : Reply → Program} {id : CallbackId} {n : Nat}
    (h : s.stack = frames ++ ⟨next, .call id n waiting⟩ :: stack)
  | ended {id : CallbackId} {n : Nat} {result : Except Thrown Returned}
    (hc : s.control = .ended (.call id n waiting) result) (hs : s.stack = stack)

/-- A program that begins has ended at once, or waits on top of the stack or of its own blocks. -/
theorem stack_enter (w : World) (cause : Cause) (stack : List Frame) (history : List Event)
    (p : Program) :
    (∃ result, (enter w cause stack history p).control = .ended cause result ∧
        (enter w cause stack history p).stack = stack) ∨
      ∃ frames next, (enter w cause stack history p).stack = frames ++ ⟨next, cause⟩ :: stack := by
  induction p generalizing cause stack history with
  | finish result => exact .inl ⟨result, rfl, rfl⟩
  | perform op next => exact .inr ⟨[], next, rfl⟩
  | block body next ih _ =>
    right
    rcases ih .block (⟨next, cause⟩ :: stack) (.opened :: history) with
      ⟨_, -, h⟩ | ⟨frames, inner, h⟩
    · exact ⟨[], next, h⟩
    · refine ⟨frames ++ [⟨inner, .block⟩], next, ?_⟩
      rw [List.append_assoc]
      exact h

theorem exists_stack_enter (w : World) (cause : Cause) (stack : List Frame) (history : List Event)
    (p : Program) : ∃ frames, (enter w cause stack history p).stack = frames ++ stack := by
  rcases stack_enter w cause stack history p with ⟨_, -, h⟩ | ⟨frames, next, h⟩
  · exact ⟨[], h⟩
  · exact ⟨frames ++ [⟨next, cause⟩], by rw [h, List.append_assoc]; rfl⟩

theorem exists_stack_turn (s : Session) (env : Environment) (t : Turn) :
    ∃ frames, (s.turn env t).stack = frames ++ s.stack := by
  obtain ⟨w, progress, events⟩ := t
  cases progress with
  | answered reply => exact ⟨[], rfl⟩
  | calling id waiting => exact exists_stack_enter _ _ _ _ _
  | tearing agenda => exact ⟨[], rfl⟩

theorem awaits_enter (w : World) (id : CallbackId) (n : Nat) (waiting : Waiting)
    (stack : List Frame) (history : List Event) (p : Program) :
    (enter w (.call id n waiting) stack history p).Awaits stack waiting := by
  rcases stack_enter w (.call id n waiting) stack history p with ⟨_, hc, hs⟩ | ⟨frames, next, h⟩
  · exact .ended hc hs
  · exact .running h

/-- Whatever a callback does, the operation waits for it until it has ended. -/
theorem Awaits.step (h : s.Awaits stack waiting) (hs : s.step env = some t) :
    t.Awaits stack waiting ∨
      ∃ id n result, s.control = .ended (.call id n waiting) result ∧ s.stack = stack := by
  cases h with
  | ended hc hs => exact .inr ⟨_, _, _, hc, hs⟩
  | @running frames next id n h =>
    left
    obtain ⟨w, control, _, history⟩ := s
    subst h
    have above {above : List Frame}
        (ht : t.stack = above ++ (frames ++ ⟨next, .call id n waiting⟩ :: stack)) :
        t.Awaits stack waiting := .running (ht.trans (List.append_assoc _ _ _).symm)
    cases control with
    | perform op =>
      obtain rfl := Option.some.inj hs
      obtain ⟨_, ht⟩ := exists_stack_turn _ env (w.perform env.host op)
      exact above ht
    | teardown agenda =>
      obtain rfl := Option.some.inj hs
      obtain ⟨_, ht⟩ := exists_stack_turn _ env (w.advance (w.registry.teardown agenda))
      exact above ht
    | ended cause result =>
      cases cause with
      | owner => simp [Session.step] at hs
      | block =>
        obtain rfl := Option.some.inj hs
        exact .running rfl
      | call id' k w' =>
        obtain rfl := Option.some.inj hs
        obtain ⟨_, ht⟩ := exists_stack_turn _ env (w.advance (w.registry.resume result w'))
        exact above ht
    | answered reply =>
      -- The innermost frame goes on: the one of the callback itself, or one that it is below.
      cases frames with
      | nil =>
        obtain rfl := Option.some.inj hs
        exact awaits_enter _ _ _ _ _ _ _
      | cons frame frames =>
        obtain rfl := Option.some.inj hs
        obtain ⟨inner, ht⟩ := exists_stack_enter w frame.cause
          (frames ++ ⟨next, .call id n waiting⟩ :: stack) history (frame.next reply)
        exact .running (ht.trans (List.append_assoc _ _ _).symm)

/-- What a step of a teardown comes to. -/
inductive Torn (stack : List Frame) (agenda : Agenda) (s t : Session) : Prop where
  | goes {d : Dismantling}
    (step : Dismantling.Step ⟨s.world.registry, agenda.items, agenda.visited, []⟩ d)
    (registry : t.world.registry = d.registry)
    (control : t.control = .teardown ⟨d.items, d.visited⟩) (same : t.stack = stack)
  | calls {n : Name} {id : CallbackId} {d : Dismantling}
    (step : Dismantling.Step ⟨s.world.registry, agenda.items, agenda.visited, []⟩ d)
    (items : agenda.items = .release n (.callback id) :: d.items)
    (waits : t.Awaits stack (.releasing n ⟨d.items, d.visited⟩))
  | done (items : agenda.items = []) (registry : t.world.registry = s.world.registry)
    (answered : t.control = .answered (.ok .nothing)) (same : t.stack = stack)

theorem torn_step {agenda : Agenda} (hc : s.control = .teardown agenda) (hst : s.stack = stack)
    (hs : s.step env = some t) : Torn stack agenda s t := by
  obtain ⟨w, control, frames, history⟩ := s
  obtain rfl : control = .teardown agenda := hc
  obtain rfl : frames = stack := hst
  obtain rfl := Option.some.inj hs
  have registry : (turn ⟨w, .teardown agenda, frames, history⟩ env
      (w.advance (w.registry.teardown agenda))).world.registry =
        (w.registry.teardown agenda).registry :=
    (registry_turn _ _ _).trans (World.registry_advance w _)
  by_cases items : agenda.items = []
  · have finished : w.registry.teardown agenda = w.registry.answer .nothing := by
      rw [Registry.teardown, items]
    have answered : (w.advance (w.registry.teardown agenda)).progress =
        .answered (.ok .nothing) := congrArg Advance.progress finished
    rw [turn_answered _ answered] at registry ⊢
    exact .done items (registry.trans (congrArg Advance.registry finished)) rfl rfl
  · obtain ⟨d, step⟩ := Dismantling.exists_step
      (d := ⟨w.registry, agenda.items, agenda.visited, []⟩) items
    obtain ⟨progress, notes, moves, -, goes⟩ := step.teardown
    have left : (w.advance (w.registry.teardown agenda)).progress = progress :=
      congrArg Advance.progress moves
    have settled := registry.trans (congrArg Advance.registry moves)
    rcases goes with ⟨rfl, -⟩ | ⟨n, id, called, rfl, -⟩
    · rw [turn_tearing _ left] at settled ⊢
      exact .goes step settled rfl rfl
    · rw [turn_calling _ left]
      exact .calls step called (awaits_enter _ _ _ _ _ _ _)

/-- The end of a release callback, whatever it is, leads back to the teardown. -/
theorem tearing_of_ended {id : CallbackId} {k : Nat} {n : Name} {agenda : Agenda}
    {result : Except Thrown Returned}
    (hc : s.control = .ended (.call id k (.releasing n agenda)) result)
    (hs : s.step env = some t) : t.control = .teardown agenda ∧ t.stack = s.stack := by
  obtain ⟨w, control, frames, history⟩ := s
  obtain rfl : control = .ended (.call id k (.releasing n agenda)) result := hc
  obtain rfl := Option.some.inj hs
  obtain ⟨_, _, resumed⟩ := w.registry.released_eq n agenda result
  have tearing : (w.advance (w.registry.resume result (.releasing n agenda))).progress =
      .tearing agenda := congrArg Advance.progress resumed
  rw [turn_tearing _ tearing]
  exact ⟨rfl, rfl⟩

/-- A request to destroy goes on with a teardown, above the frames that are there. -/
theorem tearing_of_request {q : Request} {agenda : Agenda}
    (hc : s.control = .perform (.registry q))
    (tearing : (s.world.registry.request q).progress = .tearing agenda)
    (hs : s.step env = some t) : t.control = .teardown agenda ∧ t.stack = s.stack := by
  obtain ⟨w, control, frames, history⟩ := s
  obtain rfl : control = .perform (.registry q) := hc
  obtain rfl := Option.some.inj hs
  have left : (w.perform env.host (.registry q)).progress = .tearing agenda := tearing
  rw [turn_tearing _ left]
  exact ⟨rfl, rfl⟩

theorem awaits_of_request {q : Request} {id : CallbackId} (hc : s.control = .perform (.registry q))
    (calling : (s.world.registry.request q).progress = .calling id waiting)
    (hs : s.step env = some t) : t.Awaits s.stack waiting := by
  obtain ⟨w, control, frames, history⟩ := s
  obtain rfl : control = .perform (.registry q) := hc
  obtain rfl := Option.some.inj hs
  have left : (w.perform env.host (.registry q)).progress = .calling id waiting := calling
  rw [turn_calling _ left]
  exact awaits_enter _ _ _ _ _ _ _

/-- The end of a callback leads to the answer that the operation makes of it. -/
theorem answered_of_ended {id : CallbackId} {k : Nat} {result : Except Thrown Returned}
    {reply : Reply} (hc : s.control = .ended (.call id k waiting) result)
    (answered : (s.world.registry.resume result waiting).progress = .answered reply)
    (hs : s.step env = some t) : t.control = .answered reply ∧ t.stack = s.stack := by
  obtain ⟨w, control, frames, history⟩ := s
  obtain rfl : control = .ended (.call id k waiting) result := hc
  obtain rfl := Option.some.inj hs
  have left : (w.advance (w.registry.resume result waiting)).progress = .answered reply := answered
  rw [turn_answered _ left]
  exact ⟨rfl, rfl⟩

/-- While an operation waits, no answer is given to the program that performs it. -/
theorem Awaits.stack_ne (h : s.Awaits stack waiting) {reply : Reply}
    (answered : s.control = .answered reply) : s.stack ≠ stack := by
  intro same
  cases h with
  | ended hc _ => cases hc.symm.trans answered
  | running h =>
    have lengths := congrArg List.length (h.symm.trans same)
    simp only [List.length_append, List.length_cons] at lengths
    omega

end Session

namespace Life

variable {l : Life} {j k : Nat} {reply : Reply}

/-- The operation that begins at one point of a life is answered at a later one, the first point at
which an answer is given to the program that performs it. -/
structure Returns (l : Life) (j k : Nat) (reply : Reply) : Prop where
  later : j < k
  control : (l.after k).control = .answered reply
  stack : (l.after k).stack = (l.after j).stack
  first : ∀ i, j < i → i < k → ∀ given, (l.after i).control = .answered given →
    (l.after i).stack ≠ (l.after j).stack

/-- An operation returns when it is answered, if at every point before where its program is on top
again a callback has just ended, and the operation goes on first. -/
theorem returns_of_waiting (later : j < k) (control : (l.after k).control = .answered reply)
    (stack : (l.after k).stack = (l.after j).stack)
    (waiting : ∀ i < k, j < i → (l.after i).stack.length = (l.after j).stack.length →
      (l.after i).control.waiting.isEmpty = false) : l.Returns j k reply := by
  refine ⟨later, control, stack, fun i hi hk given answered same => ?_⟩
  have waits := waiting i hk hi (congrArg List.length same)
  rw [answered] at waits
  cases waits

/-- How a teardown goes on from one of its points to the next one: in one step, or after a callback
that may have done anything. -/
structure Goes (l : Life) (i i' : Nat) (a : Agenda) (d : Dismantling) : Prop where
  control : (l.after i).control = .teardown a
  step : Dismantling.Step ⟨(l.after i).world.registry, a.items, a.visited, []⟩ d
  meanwhile : i' = i + 1 ∧ (l.after i').world.registry = d.registry ∨
    i < i' ∧ ∃ n id, a.items = .release n (.callback id) :: d.items

theorem Goes.lt {i i' : Nat} {a : Agenda} {d : Dismantling} (h : l.Goes i i' a d) : i < i' := by
  rcases h.meanwhile with ⟨rfl, -⟩ | ⟨h, -⟩
  · exact i.lt_succ_self
  · exact h

/-- How far a teardown above these frames has come at a point; the property holds when the next
step is its own. -/
inductive Course (l : Life) (stack : List Frame) (p : Nat → Agenda → Prop) (i : Nat) : Prop where
  | next {a : Agenda} (hc : (l.after i).control = .teardown a) (hs : (l.after i).stack = stack)
    (hp : p i a)
  | waits {n : Name} {a : Agenda} (h : (l.after i).Awaits stack (.releasing n a))
    (hp : ∀ i', i ≤ i' → p i' a)

theorem Course.step {stack : List Frame} {p : Nat → Agenda → Prop} {i : Nat}
    (h : l.Course stack p i)
    (goes : ∀ i' a d, l.Goes i i' a d → p i a → p i' ⟨d.items, d.visited⟩) :
    l.Course stack p (i + 1) ∨ ∃ a, a.items = [] ∧ p i a ∧
      (l.after (i + 1)).world.registry = (l.after i).world.registry ∧
      (l.after (i + 1)).control = .answered (.ok .nothing) ∧ (l.after (i + 1)).stack = stack := by
  cases h with
  | next hc hs hp =>
    have moves := Session.isSome_step l.environment (congrArg Control.passes hc)
    cases Session.torn_step hc hs (step_after moves) with
    | goes step registry control same =>
      exact .inl (.next control same (goes _ _ _ ⟨hc, step, .inl ⟨rfl, registry⟩⟩ hp))
    | calls step items waits =>
      refine .inl (.waits waits fun i' hi => ?_)
      exact goes _ _ _ ⟨hc, step, .inr ⟨hi, _, _, items⟩⟩ hp
    | done items registry answered same => exact .inr ⟨_, items, hp, registry, answered, same⟩
  | @waits n a h hp =>
    left
    have later (i' : Nat) (hi : i + 1 ≤ i') : p i' a := hp i' (Nat.le_of_succ_le hi)
    cases hs : (l.after i).step l.environment with
    | none =>
      rw [← after_halted hs] at h
      exact .waits h later
    | some t =>
      rcases h.step hs with ht | ⟨_, _, _, hc, hst⟩
      · rw [← after_succ hs] at ht
        exact .waits ht later
      · obtain ⟨control, same⟩ := Session.tearing_of_ended hc hs
        rw [← after_succ hs] at control same
        exact .next control (same.trans hst) (later _ le_rfl)

/-- A property that holds when a teardown begins, and is kept whenever it goes on, holds when
nothing is left to do; then the teardown is answered. -/
theorem Returns.of_tears (h : l.Returns j k reply) {q : Request} {agenda : Agenda}
    (hc : (l.after j).control = .perform (.registry q))
    (tearing : ((l.after j).world.registry.request q).progress = .tearing agenda)
    {p : Nat → Agenda → Prop} (start : p (j + 1) agenda)
    (goes : ∀ i i' a d, j < i → l.Goes i i' a d → p i a → p i' ⟨d.items, d.visited⟩) :
    reply = .ok .nothing ∧ ∃ i a, j < i ∧ k = i + 1 ∧ a.items = [] ∧ p i a ∧
      (l.after k).world.registry = (l.after i).world.registry := by
  have course : ∀ i, j < i → i ≤ k → l.Course (l.after j).stack p i ∨
      (reply = .ok .nothing ∧ ∃ i a, j < i ∧ k = i + 1 ∧ a.items = [] ∧ p i a ∧
        (l.after k).world.registry = (l.after i).world.registry) := by
    intro i hi
    induction i, hi using Nat.le_induction with
    | base =>
      have moves := Session.isSome_step l.environment (congrArg Control.passes hc)
      obtain ⟨control, same⟩ := Session.tearing_of_request hc tearing (step_after moves)
      exact fun _ => .inl (.next control same start)
    | succ i hi ih =>
      intro hk
      rcases ih (by omega) with course | returned
      · rcases course.step (fun i' a d => goes i i' a d hi) with
          course | ⟨a, items, hp, registry, answered, same⟩
        · exact .inl course
        · right
          have last : i + 1 = k := by
            apply Classical.byContradiction
            intro earlier
            exact h.first (i + 1) (by omega) (by omega) _ answered same
          subst last
          have given := Control.answered.inj (h.control.symm.trans answered)
          exact ⟨given, i, a, hi, rfl, items, hp, registry⟩
      · exact .inr returned
  rcases course k h.later le_rfl with course | returned
  · cases course with
    | next hc _ _ => cases hc.symm.trans h.control
    | waits awaits _ => exact absurd h.stack (awaits.stack_ne h.control)
  · exact returned

/-- The operation that begins at `j` waits for a callback from then on, which has ended at `i`. -/
structure Ends (l : Life) (j i : Nat) (waiting : Waiting) (ended : Except Thrown Returned) :
    Prop where
  later : j < i
  waits : ∀ i', j < i' → i' ≤ i → (l.after i').Awaits (l.after j).stack waiting
  control : ∃ id m, (l.after i).control = .ended (.call id m waiting) ended
  stack : (l.after i).stack = (l.after j).stack

/-- An operation that calls a callback waits for it up to a later point, or the callback has ended
before that point. -/
theorem waits_or_ends {q : Request} {id : CallbackId} {waiting : Waiting}
    (hc : (l.after j).control = .perform (.registry q))
    (calling : ((l.after j).world.registry.request q).progress = .calling id waiting)
    (later : j < k) :
    (∀ i, j < i → i ≤ k → (l.after i).Awaits (l.after j).stack waiting) ∨
      ∃ i < k, ∃ ended, l.Ends j i waiting ended := by
  induction k, later using Nat.le_induction with
  | base =>
    have moves := Session.isSome_step l.environment (congrArg Control.passes hc)
    have first := Session.awaits_of_request hc calling (step_after moves)
    refine .inl fun i hi le => ?_
    rwa [Nat.le_antisymm le hi]
  | succ k hk ih =>
    rcases ih with waits | ⟨i, hi, ended, ends⟩
    · have extend (next : (l.after (k + 1)).Awaits (l.after j).stack waiting) :
          ∀ i, j < i → i ≤ k + 1 → (l.after i).Awaits (l.after j).stack waiting := by
        intro i hi le
        rcases Nat.le_succ_iff.mp le with le | rfl
        · exact waits i hi le
        · exact next
      have here := waits k hk le_rfl
      cases hs : (l.after k).step l.environment with
      | none => exact .inl (extend (after_halted hs ▸ here))
      | some t =>
        rw [← after_succ hs] at hs
        rcases here.step hs with next | ⟨id, m, ended, control, same⟩
        · exact .inl (extend next)
        · exact .inr ⟨k, k.lt_succ_self, ended, hk, waits, ⟨id, m, control⟩, same⟩
    · exact .inr ⟨i, Nat.lt_succ_of_lt hi, ended, ends⟩

/-- The end of the callback is followed by the answer that the operation makes of it. -/
theorem Ends.answered {i : Nat} {waiting : Waiting} {ended : Except Thrown Returned}
    (h : l.Ends j i waiting ended)
    (makes : ((l.after i).world.registry.resume ended waiting).progress = .answered reply) :
    (l.after (i + 1)).control = .answered reply ∧ (l.after (i + 1)).stack = (l.after j).stack := by
  obtain ⟨id, m, control⟩ := h.control
  have moves := Session.isSome_step l.environment (congrArg Control.passes control)
  obtain ⟨answered, below⟩ := Session.answered_of_ended control makes (step_after moves)
  exact ⟨answered, below.trans h.stack⟩

/-- An operation that calls a callback, and goes on with nothing else, is answered by what it makes
of the end of the callback. -/
theorem Returns.of_calls (h : l.Returns j k reply) {q : Request} {id : CallbackId}
    {waiting : Waiting} (hc : (l.after j).control = .perform (.registry q))
    (calling : ((l.after j).world.registry.request q).progress = .calling id waiting)
    (answers : ∀ (r : Registry) ended, ∃ reply,
      (r.resume ended waiting).progress = .answered reply) :
    ∃ i ended, k = i + 1 ∧ l.Ends j i waiting ended ∧
      ((l.after i).world.registry.resume ended waiting).progress = .answered reply := by
  rcases waits_or_ends hc calling h.later with waits | ⟨i, hi, ended, ends⟩
  · exact absurd h.stack ((waits k h.later le_rfl).stack_ne h.control)
  · obtain ⟨given, makes⟩ := answers (l.after i).world.registry ended
    obtain ⟨answered, same⟩ := ends.answered makes
    have last : i + 1 = k := by
      apply Classical.byContradiction
      intro earlier
      exact h.first (i + 1) (Nat.lt_succ_of_lt ends.later) (by omega) _ answered same
    subst last
    obtain rfl := Control.answered.inj (answered.symm.trans h.control)
    exact ⟨i, ended, rfl, ends, makes⟩

/-- So an operation returns once the callback that it waits for has ended. -/
theorem Ends.returns {i : Nat} {waiting : Waiting} {ended : Except Thrown Returned}
    (h : l.Ends j i waiting ended)
    (makes : ((l.after i).world.registry.resume ended waiting).progress = .answered reply) :
    l.Returns j (i + 1) reply := by
  obtain ⟨answered, same⟩ := h.answered makes
  refine ⟨Nat.lt_succ_of_lt h.later, answered, same, fun i' hi' lt given control => ?_⟩
  exact (h.waits i' hi' (Nat.le_of_lt_succ lt)).stack_ne control

/-- An operation that is answered by its first step returns at once, and nothing is called. -/
theorem returns_at_once {q : Request} (hc : (l.after j).control = .perform (.registry q))
    (answered : ((l.after j).world.registry.request q).progress = .answered reply) :
    l.Returns j (j + 1) reply ∧
      (l.after (j + 1)).world.registry = ((l.after j).world.registry.request q).registry ∧
      (l.after (j + 1)).world.calls = (l.after j).world.calls := by
  obtain ⟨t, hs, control, stack, registry, calls⟩ :=
    Session.step_request_answered l.environment hc answered
  rw [after_succ hs]
  refine ⟨⟨j.lt_succ_self, ?_, ?_, fun i hi lt => by omega⟩, registry, calls⟩
  · rw [after_succ hs, control]
  · rw [after_succ hs, stack]

/-- An operation that is answered by its first step returns with that answer. -/
theorem Returns.of_answered (h : l.Returns j k reply) {q : Request} {given : Reply}
    (hc : (l.after j).control = .perform (.registry q))
    (answered : ((l.after j).world.registry.request q).progress = .answered given) :
    k = j + 1 ∧ reply = given := by
  obtain ⟨t, hs, control, stack, -⟩ := Session.step_request_answered l.environment hc answered
  rw [← after_succ hs] at control stack
  have last : k = j + 1 := by
    apply Classical.byContradiction
    intro later
    exact h.first (j + 1) (Nat.lt_succ_self j) (by have := h.later; omega) _ control stack
  subst last
  exact ⟨rfl, Control.answered.inj (h.control.symm.trans control)⟩

end Life

end Singletons
