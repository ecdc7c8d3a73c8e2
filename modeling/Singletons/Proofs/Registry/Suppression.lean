import Mathlib.Data.List.Intervals
import Singletons.Proofs.Registry.Delivery
import Singletons.Proofs.Session.Return
/-!
# Suppressed faults

Faults are collected while factories are running, on behalf of the creation below all others. Its
own failure brings them along, as many as the limit leaves room for; no other failure does.
-/

namespace Singletons

def Request.suppresses : Request → List Fault
  | suppress faults => faults
  | _ => []

/-- The faults that the next step hands in for suppression. -/
def Control.suppresses : Control → List Fault
  | perform (.registry q) => q.suppresses
  | _ => []

theorem Control.suppresses_of_passes {c : Control} (h : c.passes) : c.suppresses = [] := by
  cases c with
  | perform op =>
    cases op with
    | registry q => cases h
    | _ => rfl
  | _ => rfl

namespace Waiting

/-- Whether an operation gives up the collected faults when its callback has ended. -/
def collects : Waiting → Bool
  | creating _ outermost _ => outermost
  | promoting _ _ => false
  | releasing _ _ => false

/-- Of the creations that wait, just the one below all others collects faults. -/
def Layered : List Waiting → Prop
  | [] => True
  | w :: below =>
    (w.collects = true ↔ w.creates ≠ [] ∧ below.flatMap (·.creates) = []) ∧ Layered below

end Waiting

/-- Whether a factory says or shows itself that it has failed. To have found an object that is not
bound is no failure of its own. -/
def Outcome.isFailure : Outcome → Bool
  | created object => object.isNone
  | alreadyPresent _ => false
  | failed _ => true

/-- Whether a factory has failed by itself; what describes nothing passes the creation by. -/
def failsItself : Except Thrown Returned → Bool
  | .error thrown => thrown.text?.isSome
  | .ok returned => returned.asOutcome.isFailure

/-- The causes that a factory relates to its own end. -/
def relatedBy : Except Thrown Returned → List Fault
  | .error _ => []
  | .ok returned => (returned.asOutcome.fault?.map (·.related)).getD []

/-- The result is a failure, reported by a fault with its code and just these causes. -/
def Result.Relates (result : Result Fault Object) (causes : List Fault) : Prop :=
  ∃ fault, result = .report fault.code (some fault) ∧ fault.related = causes

/-- A bare creation tells of a failure all that a full one tells. -/
theorem Advance.failure_of_bare {a : Advance} {result : Result Fault Object}
    (h : a.bare.progress = .answered (.ok (.creation result))) (failed : result.isOk = false) :
    a.progress = .answered (.ok (.creation result)) := by
  obtain ⟨full, answered, same⟩ := answered_of_bare h
  cases full with
  | error thrown => cases same
  | ok answer =>
    cases answer with
    | creation whole =>
      obtain rfl : result = whole.bare := Answer.creation.inj (Except.ok.inj same)
      rw [Result.isOk_bare] at failed
      rw [answered, Result.bare_of_not_isOk failed]
    | _ => cases same

namespace Fault

theorem related_named (f : Fault) (n : Name) : (f.named n).related = f.related := by
  unfold named
  split <;> rfl

theorem related_described (f : Fault) (message : String) :
    (f.described message).related = f.related := by
  unfold described
  split <;> rfl

theorem related_failing (f : Fault) (code : Code) : (f.failing code).related = f.related := by
  unfold failing
  split <;> rfl

end Fault

/-- To add a fault only while fewer than the limit are kept is to keep the first ones of all. -/
theorem keep_take (limit : Nat) (faults : List Fault) (fault : Fault) :
    (if (faults.take limit).length < limit then faults.take limit ++ [fault]
      else faults.take limit) = (faults ++ [fault]).take limit := by
  rw [List.length_take]
  by_cases room : faults.length < limit
  · have whole : faults.take limit = faults := List.take_of_length_le (by omega)
    have more : (faults ++ [fault]).take limit = faults ++ [fault] := by
      apply List.take_of_length_le
      simp
      omega
    rw [if_pos (by omega), whole, more]
  · rw [if_neg (by omega), List.take_append_of_le_length (by omega)]

namespace Registry

/-- The faults of this list have been collected, as many as the limit allows. -/
def Collected (r : Registry) (faults : List Fault) : Prop :=
  r.suppressed = some (faults.take r.config.limit)

theorem config_suppress (r : Registry) (fault : Fault) : (r.suppress fault).config = r.config := by
  obtain ⟨_, h⟩ := r.suppress_eq fault
  rw [h]

theorem Collected.suppress {r : Registry} {faults : List Fault} (h : r.Collected faults)
    (fault : Fault) : (r.suppress fault).Collected (faults ++ [fault]) := by
  rw [Collected, config_suppress, ← keep_take]
  simp only [Registry.suppress, show r.suppressed = _ from h]
  split
  · rfl
  · exact h

theorem Collected.suppresses {r : Registry} {faults : List Fault} (h : r.Collected faults)
    (more : List Fault) : (more.foldl Registry.suppress r).Collected (faults ++ more) := by
  induction more generalizing r faults with
  | nil =>
    rw [List.append_nil]
    exact h
  | cons fault more ih =>
    have rest := ih (h.suppress fault)
    rw [List.append_assoc] at rest
    exact rest

/-- What is collected decides how much is collected next, and nothing else does. -/
theorem Collected.of_suppressed {r r' : Registry} {faults : List Fault} (h : r.Collected faults)
    (config : r'.config = r.config) (same : r'.suppressed = r.suppressed) :
    r'.Collected faults := by
  rw [Collected, same, config]
  exact h

theorem suppressed_eq_none_foldl (r : Registry) (faults : List Fault) :
    (faults.foldl suppress r).suppressed = none ↔ r.suppressed = none := by
  induction faults generalizing r with
  | nil => rfl
  | cons fault faults ih =>
    rw [List.foldl_cons, ih, suppress]
    split
    · split
      · simp [*]
      · simp [*]
    · simp [*]

/-- A request that calls a factory begins to collect, or goes on with it; any other one leaves what
is collected, but for the faults that it hands in. -/
theorem suppressed_request (r : Registry) (q : Request) :
    (∃ n bare, (r.request q).progress.waiting = [.creating n r.suppressed.isNone bare] ∧
        q.suppresses = [] ∧
        (r.request q).registry.suppressed = some (r.suppressed.getD [])) ∨
      (r.request q).creates = [] ∧
        (r.request q).registry.suppressed = (q.suppresses.foldl suppress r).suppressed := by
  cases q with
  | register n object =>
    obtain ⟨_, _, _, h, _⟩ := r.register_eq n object
    exact .inr (by rw [request, h]; exact ⟨rfl, rfl⟩)
  | lookup n early =>
    rcases r.lookup_eq n early with ⟨_, h⟩ | ⟨_, h⟩
    · exact .inr (by rw [request, h]; exact ⟨rfl, rfl⟩)
    · exact .inr (by rw [request, h]; exact ⟨rfl, rfl⟩)
  | stage n factory =>
    obtain ⟨_, _, _, h, _⟩ := r.stage_eq n factory
    exact .inr (by rw [request, h]; exact ⟨rfl, rfl⟩)
  | getOrCreate n factory =>
    rcases r.getOrCreate_eq n factory with ⟨_, _, h⟩ | ⟨_, _, _, _, _, _, h⟩
    · exact .inr (by rw [request, h]; exact ⟨rfl, rfl⟩)
    · exact .inl (by rw [request, h]; exact ⟨n, false, rfl, rfl, rfl⟩)
  | getOrCreateBare n factory =>
    rcases r.getOrCreate_eq n factory with ⟨_, _, h⟩ | ⟨_, _, _, _, _, _, h⟩
    · exact .inr (by rw [request, h]; exact ⟨rfl, rfl⟩)
    · exact .inl (by rw [request, h]; exact ⟨n, true, rfl, rfl, rfl⟩)
  | _ => exact .inr ⟨rfl, rfl⟩

theorem suppressed_teardown (r : Registry) (agenda : Agenda) :
    (r.teardown agenda).registry.suppressed = r.suppressed := by
  obtain ⟨items, visited⟩ := agenda
  by_cases items_nil : items = []
  · subst items_nil
    rfl
  · obtain ⟨d, step⟩ := Dismantling.exists_step (d := ⟨r, items, visited, []⟩) items_nil
    obtain ⟨_, _, moves, -⟩ := step.teardown
    rw [moves]
    cases step <;> rfl

theorem suppressed_resume (r : Registry) (ended : Except Thrown Returned) (w : Waiting) :
    (r.resume ended w).registry.suppressed = if w.collects then none else r.suppressed := by
  cases w with
  | creating n outermost bare =>
    obtain ⟨_, _, h⟩ := r.resume_creating_eq n outermost bare ended
    rw [h]
    rfl
  | promoting n f =>
    obtain ⟨_, _, _, h, _⟩ := r.madeEarly_eq n f ended
    rw [resume, h]
    rfl
  | releasing n rest =>
    obtain ⟨_, _, h⟩ := r.released_eq n rest ended
    rw [resume, h]
    rfl

/-- However a factory ends, the creation is answered. -/
theorem exists_answered_creating (r : Registry) (n : Name) (outermost bare : Bool)
    (ended : Except Thrown Returned) :
    ∃ reply, (r.resume ended (.creating n outermost bare)).progress = .answered reply := by
  obtain ⟨reply, _, h⟩ := r.resume_creating_eq n outermost bare ended
  exact ⟨reply, congrArg Advance.progress h⟩

variable {r : Registry} {n : Name} {outermost : Bool} {ended : Except Thrown Returned}
  {result : Result Fault Object}

theorem relates_refuse {fault : Fault} {notes : List Note}
    (h : (r.refuse fault notes).progress = .answered (.ok (.creation result))) :
    result.Relates fault.related := by
  obtain rfl := Answer.creation.inj (Except.ok.inj (Progress.answered.inj h))
  exact ⟨fault, rfl, rfl⟩

/-- A creation that fails without a call of its factory relates no causes to that. -/
theorem relates_getOrCreate {factory : Option CallbackId}
    (h : (r.getOrCreate n factory).progress = .answered (.ok (.creation result)))
    (failed : result.isOk = false) : result.Relates [] := by
  unfold getOrCreate at h
  split at h
  · exact relates_refuse h
  · split at h
    · obtain rfl := Answer.creation.inj (Except.ok.inj (Progress.answered.inj h))
      cases failed
    · split at h
      · exact relates_refuse h
      · split at h
        · exact relates_refuse h
        · cases h

/-- The causes that the failure of a creation tells: those that its factory related to it, and with
the outermost one, if its factory has failed by itself, what was collected. -/
def causes (r : Registry) (outermost : Bool) (ended : Except Thrown Returned) : List Fault :=
  relatedBy ended ++
    if outermost = true ∧ failsItself ended = true then
      (r.suppressed.getD []).take (r.config.limit - (relatedBy ended).length)
    else []

theorem relates_failCreation {fault : Fault} (itself : failsItself ended = true)
    (own : fault.related = relatedBy ended)
    (h : (r.failCreation n outermost fault).progress = .answered (.ok (.creation result))) :
    result.Relates (r.causes outermost ended) := by
  obtain rfl := Answer.creation.inj (Except.ok.inj (Progress.answered.inj h))
  refine ⟨_, rfl, ?_⟩
  rw [causes, itself, ← own]
  cases outermost with
  | true => simp [Fault.attach]
  | false => simp

/-- An object that was said to be present and is not bound fails the creation, but no more than the
factory said is told of it. -/
theorem relates_present {r' : Registry} {fault? : Option Fault} {notes : List Note}
    (h : (r'.refuse (((fault?.getD (Refusal.notBound.fault n)).named n).described
      Refusal.notBound.message) notes).progress = .answered (.ok (.creation result))) :
    result.Relates (r.causes outermost (.ok (.outcome (.alreadyPresent fault?)))) := by
  have told := relates_refuse h
  rw [Fault.related_described, Fault.related_named] at told
  have present : failsItself (.ok (.outcome (.alreadyPresent fault?))) = false := rfl
  rw [causes, present]
  cases fault? with
  | none => simpa [relatedBy, Returned.asOutcome, Outcome.fault?, Refusal.fault] using told
  | some fault => simpa [relatedBy, Returned.asOutcome, Outcome.fault?] using told

theorem relates_created
    (h : (r.created n outermost ended).progress = .answered (.ok (.creation result)))
    (failed : result.isOk = false) : result.Relates (r.causes outermost ended) := by
  cases ended with
  | error thrown =>
    cases what : thrown.text? with
    | none => simp [created, what] at h
    | some text =>
      simp only [created, what] at h
      exact relates_failCreation (by simp [failsItself, what]) rfl h
  | ok returned =>
    cases returned with
    | released plain =>
      have itself : failsItself (.ok (.released plain)) = true := rfl
      exact relates_failCreation itself rfl h
    | outcome o =>
      cases o with
      | created object =>
        cases object with
        | none =>
          have itself : failsItself (.ok (.outcome (.created none))) = true := rfl
          exact relates_failCreation itself rfl h
        | some o =>
          obtain rfl := Answer.creation.inj (Except.ok.inj (Progress.answered.inj h))
          cases failed
      | alreadyPresent fault? =>
        cases bound : r.cache.find? n with
        | some o =>
          simp only [created, Returned.asOutcome, bound] at h
          obtain rfl := Answer.creation.inj (Except.ok.inj (Progress.answered.inj h))
          cases failed
        | none =>
          simp only [created, Returned.asOutcome, bound] at h
          exact relates_present h
      | failed fault? =>
        refine relates_failCreation rfl ?_ h
        rw [Fault.related_failing, Fault.related_named]
        cases fault? <;> rfl

theorem relates_request {q : Request} {factory : Option CallbackId}
    (hq : q.creation? = some (n, factory))
    (h : (r.request q).progress = .answered (.ok (.creation result)))
    (failed : result.isOk = false) : result.Relates [] := by
  cases q with
  | getOrCreate m f => exact relates_getOrCreate h failed
  | getOrCreateBare m f => exact relates_getOrCreate (Advance.failure_of_bare h failed) failed
  | _ => cases hq

theorem relates_resume {bare : Bool}
    (h : (r.resume ended (.creating n outermost bare)).progress =
      .answered (.ok (.creation result)))
    (failed : result.isOk = false) : result.Relates (r.causes outermost ended) := by
  cases bare with
  | false => exact relates_created h failed
  | true => exact relates_created (Advance.failure_of_bare h failed) failed

/-- A request to create a name is answered at once or calls the factory, for which it collects
faults if no other creation does. -/
theorem request_creation {q : Request} {factory : Option CallbackId}
    (hq : q.creation? = some (n, factory)) :
    (∃ reply, (r.request q).progress = .answered reply) ∨
      ∃ f bare, factory = some f ∧
        (r.request q).progress = .calling f (.creating n r.suppressed.isNone bare) ∧
        (r.request q).registry.suppressed = some (r.suppressed.getD []) := by
  cases q with
  | getOrCreate m factory =>
    obtain ⟨rfl, rfl⟩ := Prod.mk.inj (Option.some.inj hq)
    rcases r.getOrCreate_eq m factory with ⟨reply, _, h⟩ | ⟨f, _, called, _, _, _, h⟩
    · exact .inl ⟨reply, by rw [request, h]⟩
    · exact .inr ⟨f, false, called, by rw [request, h], by rw [request, h]⟩
  | getOrCreateBare m factory =>
    obtain ⟨rfl, rfl⟩ := Prod.mk.inj (Option.some.inj hq)
    rcases r.getOrCreate_eq m factory with ⟨reply, _, h⟩ | ⟨f, _, called, _, _, _, h⟩
    · exact .inl ⟨reply.map Answer.bare, by rw [request, h]; rfl⟩
    · exact .inr ⟨f, true, called, by rw [request, h]; rfl, by rw [request, h]; rfl⟩
  | _ => cases hq

end Registry

theorem Waiting.layered_append {ws below : List Waiting} (idle : ws.flatMap (·.creates) = [])
    (h : Layered below) : Layered (ws ++ below) := by
  induction ws with
  | nil => exact h
  | cons w ws ih =>
    obtain ⟨own, rest⟩ := List.append_eq_nil_iff.mp idle
    refine ⟨?_, ih rest⟩
    cases w with
    | creating n outermost bare => cases own
    | promoting n f => simp [collects, creates]
    | releasing n agenda => simp [collects, creates]

namespace Session

/-- Faults are collected exactly while a factory is running, for the creation below all others. -/
structure Scoped (s : Session) : Prop where
  layered : Waiting.Layered s.waiting
  collecting : s.world.registry.suppressed = none ↔ s.creating = []

variable {env : Environment} {s t : Session}

theorem Public.scoped_step (hp : s.Public) (h : s.Scoped) (hs : s.step env = some t) :
    t.Scoped := by
  obtain ⟨a, rest, move, hr, hw⟩ := step_cases hs
  have creating := creating_of_waiting hw
  cases move with
  | pass hc =>
    refine ⟨hw ▸ h.layered, ?_⟩
    rw [hr, creating]
    exact h.collecting
  | @request q hc =>
    rcases s.world.registry.suppressed_request q with
      ⟨n, bare, calls, -, begun⟩ | ⟨idle, kept⟩
    · have creates : (s.world.registry.request q).creates = [n] := by
        rw [Advance.creates, calls]
        rfl
      refine ⟨?_, ?_⟩
      · rw [hw, calls]
        refine ⟨?_, h.layered⟩
        rw [Waiting.collects, Option.isNone_iff_eq_none, h.collecting]
        simp [Waiting.creates, Session.creating]
      · rw [hr, begun, creating, creates]
        simp
    · refine ⟨hw ▸ Waiting.layered_append idle h.layered, ?_⟩
      rw [hr, kept, Registry.suppressed_eq_none_foldl, creating, idle]
      exact h.collecting
  | part hc => exact absurd (hp.operation _ hc) (by simp [Operation.isPublic])
  | @teardown agenda hc =>
    have idle := (s.world.registry.teardown_creates agenda).2
    refine ⟨hw ▸ Waiting.layered_append idle h.layered, ?_⟩
    rw [hr, Registry.suppressed_teardown, creating, idle]
    exact h.collecting
  | @resume id k w ended _ hc hrest =>
    have layered := h.layered
    have collecting := h.collecting
    rw [hrest] at layered
    rw [Session.creating, hrest, List.flatMap_cons, List.append_eq_nil_iff] at collecting
    have nothing := s.world.registry.waiting_resume ended w
    rw [nothing] at hw
    have below : t.creating = rest.flatMap (·.creates) := by rw [Session.creating, hw]; rfl
    refine ⟨hw ▸ layered.2, ?_⟩
    rw [hr, Registry.suppressed_resume, below]
    cases collects : w.collects with
    | true => simp [(layered.1.mp collects).2]
    | false =>
      have outer : ¬ (w.creates ≠ [] ∧ rest.flatMap (·.creates) = []) := fun bottom =>
        Bool.false_ne_true (collects.symm.trans (layered.1.mpr bottom))
      simp only [Bool.false_eq_true, if_false, collecting]
      tauto

/-- As long as the factory of a creation runs that is below all others, every step collects what it
hands in. -/
theorem Public.collected_step {stack : List Frame} {n : Name} {bare : Bool} {faults : List Fault}
    (hp : s.Public) (scope : s.Scoped) (hs : s.step env = some t)
    (running : s.Awaits stack (.creating n true bare))
    (still : t.Awaits stack (.creating n true bare))
    (h : s.world.registry.Collected faults) :
    t.world.registry.Collected (faults ++ s.control.suppresses) := by
  obtain ⟨a, rest, move, hr, -⟩ := step_cases hs
  have config := congrArg Prod.fst (hp.settings_step hs)
  have quiet {c : Control} (hc : s.control = c) (none : c.suppresses = [])
      (same : a.registry.suppressed = s.world.registry.suppressed) :
      t.world.registry.Collected (faults ++ s.control.suppresses) := by
    rw [hc, none, List.append_nil]
    exact h.of_suppressed config (hr ▸ same)
  cases move with
  | pass hc => exact quiet rfl (Control.suppresses_of_passes hc) rfl
  | @request q hc =>
    rcases s.world.registry.suppressed_request q with ⟨_, _, -, none, begun⟩ | ⟨-, kept⟩
    · refine quiet hc none ?_
      rw [begun, show s.world.registry.suppressed = _ from h]
      rfl
    · rw [hc]
      have more := h.suppresses q.suppresses
      have limit : (q.suppresses.foldl Registry.suppress s.world.registry).config =
          s.world.registry.config := by
        obtain ⟨_, same⟩ := s.world.registry.foldl_suppress_eq q.suppresses
        rw [same]
      exact more.of_suppressed (config.trans limit.symm) (hr ▸ kept)
  | part hc => exact absurd (hp.operation _ hc) (by simp [Operation.isPublic])
  | @teardown agenda hc => exact quiet hc rfl (s.world.registry.suppressed_teardown agenda)
  | @resume id k w ended rest hc hrest =>
    refine quiet hc rfl ?_
    rw [Registry.suppressed_resume]
    -- The factory that ends here is another one, which runs above the one that is awaited.
    have inner : w.collects = false := by
      apply Bool.eq_false_iff.mpr
      intro collects
      have layered := scope.layered
      rw [hrest] at layered
      have bottom := (layered.1.mp collects).2
      cases running with
      | ended own below =>
        obtain ⟨same, -⟩ := Control.ended.inj (hc.symm.trans own)
        obtain ⟨-, -, rfl⟩ := Cause.call.inj same
        obtain ⟨reply, answers⟩ := s.world.registry.exists_answered_creating n true bare ended
        obtain ⟨answered, stack⟩ := answered_of_ended hc answers hs
        exact still.stack_ne answered (stack.trans below)
      | @running frames next id' m below =>
        have waits : rest = s.stack.flatMap (·.cause.waiting) := by
          rw [Session.waiting, hc] at hrest
          exact (List.cons.inj hrest).2.symm
        rw [waits, below] at bottom
        simp [Cause.waiting, Waiting.creates] at bottom
    rw [inner]
    rfl

end Session

namespace Life

variable {l : Life} {j k : Nat}

theorem scoped_after (l : Life) (k : Nat) : (l.after k).Scoped := by
  induction k with
  | zero =>
    refine ⟨?_, ?_⟩
    · rw [after, waiting_start]
      trivial
    · rw [after, registry_start, Session.creating, waiting_start]
      exact iff_of_true rfl rfl
  | succ k ih =>
    cases hs : (l.after k).step l.environment with
    | none =>
      rw [after_halted hs]
      exact ih
    | some t =>
      rw [after_succ hs]
      exact (l.reaches_after k).isPublic.scoped_step ih hs

/-- The faults that are handed in for suppression after the one point and before the other. -/
def suppressedBetween (l : Life) (j k : Nat) : List Fault :=
  (List.Ico (j + 1) k).flatMap fun i => (l.after i).control.suppresses

theorem suppressedBetween_succ (h : j < k) :
    l.suppressedBetween j (k + 1) = l.suppressedBetween j k ++ (l.after k).control.suppresses := by
  rw [suppressedBetween, List.Ico.succ_top h, List.flatMap_append]
  simp [suppressedBetween]

/-- While the factory runs that is below all others, all that is handed in is collected. -/
theorem collected_after {n : Name} {bare : Bool}
    (begun : (l.after (j + 1)).world.registry.Collected []) {i : Nat} (later : j < i)
    (waits : ∀ i', j < i' → i' ≤ i →
      (l.after i').Awaits (l.after j).stack (.creating n true bare)) :
    (l.after i).world.registry.Collected (l.suppressedBetween j i) := by
  induction i, later using Nat.le_induction with
  | base =>
    have nothing : l.suppressedBetween j (j + 1) = [] := by simp [suppressedBetween]
    rw [nothing]
    exact begun
  | succ i hi ih =>
    have before := ih fun i' hi' le => waits i' hi' (Nat.le_succ_of_le le)
    rw [suppressedBetween_succ hi]
    cases hs : (l.after i).step l.environment with
    | none =>
      have silent := Control.suppresses_of_passes (Session.passes_of_halted hs)
      rw [after_halted hs, silent, List.append_nil]
      exact before
    | some t =>
      have still := waits (i + 1) (Nat.lt_succ_of_lt hi) le_rfl
      rw [after_succ hs] at still ⊢
      exact (l.reaches_after i).isPublic.collected_step (l.scoped_after i) hs
        (waits i hi i.le_succ) still before

/-- What the failure of a creation tells besides its code, name and message. If the factory was not
called, no causes. If it was, those that the factory related to its own end; and if no other factory
was running before and this one has failed by itself, also the faults that were handed in while it
ran, the oldest ones, as many as the limit leaves room for. -/
theorem failure_relates (l : Life) {q : Request} {n : Name} {factory : Option CallbackId}
    {result : Result Fault Object} (hc : (l.after j).control = .perform (.registry q))
    (hq : q.creation? = some (n, factory)) (h : l.Returns j k (.ok (.creation result)))
    (failed : result.isOk = false) :
    (k = j + 1 ∧ (l.after k).world.calls = (l.after j).world.calls ∧ result.Relates []) ∨
    ∃ f i outermost bare ended, factory = some f ∧ k = i + 1 ∧
      l.Ends j i (.creating n outermost bare) ended ∧
      result.Relates (relatedBy ended ++
        if (l.after j).creating = [] ∧ failsItself ended = true then
          (l.suppressedBetween j k).take (l.config.limit - (relatedBy ended).length)
        else []) := by
  rcases Registry.request_creation hq (r := (l.after j).world.registry) with
    ⟨reply, answered⟩ | ⟨f, bare, called, calling, begun⟩
  · left
    obtain ⟨rfl, rfl⟩ := h.of_answered hc answered
    obtain ⟨t, hs, -, -, -, calls⟩ := Session.step_request_answered l.environment hc answered
    refine ⟨rfl, ?_, Registry.relates_request hq answered failed⟩
    rw [after_succ hs, calls]
  · right
    obtain ⟨i, ended, rfl, ends, answered⟩ := h.of_calls hc calling fun r ended =>
      r.exists_answered_creating n _ bare ended
    refine ⟨f, i, _, bare, ended, called, rfl, ends, ?_⟩
    have told := Registry.relates_resume answered failed
    have scope := (l.scoped_after j).collecting
    have outermost : (l.after j).world.registry.suppressed.isNone = true ↔
        (l.after j).creating = [] := Option.isNone_iff_eq_none.trans scope
    rw [Registry.causes, l.config_after] at told
    simp only [outermost] at told
    by_cases alone : (l.after j).creating = []
    · have moves := Session.isSome_step l.environment (congrArg Control.passes hc)
      have registry := Session.registry_of_request hc (step_after moves)
      have collecting : (l.after (j + 1)).world.registry.Collected [] := by
        rw [Registry.Collected, registry, begun, scope.mpr alone, List.take_nil]
        rfl
      have collected : (l.after i).world.registry.Collected (l.suppressedBetween j i) :=
        collected_after collecting ends.later (outermost.mpr alone ▸ ends.waits)
      obtain ⟨id, m, control⟩ := ends.control
      have whole : l.suppressedBetween j (i + 1) = l.suppressedBetween j i := by
        rw [suppressedBetween_succ ends.later, control]
        exact List.append_nil _
      rw [Registry.Collected, l.config_after] at collected
      rw [collected, Option.getD_some, List.take_take, Nat.min_eq_left (Nat.sub_le _ _)] at told
      rw [whole]
      exact told
    · simpa [alone] using told

/-- A factory hands in a fault and creates another name, whose factory hands in one too; both fail.
There is room for two causes. -/
def failing : Life where
  environment :=
    { body := fun id _ =>
        if id = "f" then
          .perform (.registry (.suppress [⟨.creationFailed, "c", "first", []⟩])) fun _ =>
          .perform (.registry (.getOrCreate "b" (some "g"))) fun _ =>
          .finish (.ok (.outcome (.failed (some ⟨.creationFailed, "a", "own", [default]⟩))))
        else
          .perform (.registry (.suppress [⟨.creationFailed, "c", "second", []⟩])) fun _ =>
          .finish (.error (.error "thrown"))
      host := default }
  world := { registry := .ofConfig { limit := 2 } id }
  program := .perform (.registry (.getOrCreate "a" (some "f"))) fun _ => .finish (.ok .nothing)
  config := { limit := 2 }
  canonical := id
  fresh := rfl
  program_public := request_public "a" "f"
  body_public := by
    intro id _
    dsimp only
    split
    · exact ⟨rfl, fun _ => ⟨rfl, fun _ => trivial⟩⟩
    · exact ⟨rfl, fun _ => trivial⟩

theorem returns_failing : failing.Returns 0 9 (.ok (.creation (.report .creationFailed
    (some ⟨.creationFailed, "a", "own", [default, ⟨.creationFailed, "c", "first", []⟩]⟩)))) :=
  returns_of_waiting (by decide) rfl rfl (by decide)

/-- The own cause comes first, and of the two faults that were handed in there is room for one. -/
theorem failure_relates_failing :
    (∃ result, failing.Returns 0 9 (.ok (.creation result)) ∧ result.isOk = false ∧
      ∃ f i outermost bare ended, some "f" = some f ∧ 9 = i + 1 ∧
        failing.Ends 0 i (.creating "a" outermost bare) ended ∧
        result.Relates (relatedBy ended ++
          if (failing.after 0).creating = [] ∧ failsItself ended = true then
            (failing.suppressedBetween 0 9).take (failing.config.limit - (relatedBy ended).length)
          else [])) ∧
    failing.suppressedBetween 0 9 =
      [⟨.creationFailed, "c", "first", []⟩, ⟨.creationFailed, "c", "second", []⟩] := by
  refine ⟨⟨_, returns_failing, rfl, ?_⟩, rfl⟩
  rcases failing.failure_relates rfl rfl returns_failing rfl with ⟨same, -⟩ | told
  · cases same
  · exact told

end Life

end Singletons
