import Singletons.Proofs.Handles.Steps
import Singletons.Proofs.Registry.Suppression
import Singletons.Proofs.Session.Nesting
/-!
# The report of failed releases

A release callback fails if it hands back a code that is no success, or if it throws. Nothing else
is reported: whoever takes the report gets the first failures since it was last taken, as many as
the limit allows, whatever teardowns they happened in.
-/

namespace Singletons

/-- The end of a release callback is a failure, and this text tells why. -/
inductive ReleaseFails : Except Thrown Returned → String → Prop where
  | told {r : Plain} {text : String} (code : r.code ≠ .ok ∧ r.code ≠ .duplicateIgnored)
    (detail : r.detail = some text) : ReleaseFails (.ok (.released r)) text
  | untold {r : Plain} (code : r.code ≠ .ok ∧ r.code ≠ .duplicateIgnored)
    (detail : r.detail = none) : ReleaseFails (.ok (.released r)) r.code.name
  | described (what : String) : ReleaseFails (.error (.error what)) what
  | malformed : ReleaseFails (.error .malformed) malformedText
  | foreign (value : Int) : ReleaseFails (.error (.foreign value)) "unknown exception"

/-- What the next step makes of the failures that are recorded. -/
def Control.record (limit : Nat) (faults : List Fault) : Control → List Fault
  | perform (.registry .takeFaults) => []
  | ended (.call _ _ (.releasing n _)) result => Registry.recorded limit faults n result
  | _ => faults

/-- The faults that the next step has to record: one if a release callback has failed. -/
def Control.failures : Control → List Fault
  | ended (.call _ _ (.releasing n _)) result =>
    ((Registry.releaseFailure? result).map fun reason => (Refusal.release reason).fault n).toList
  | _ => []

theorem Control.mem_failures {c : Control} {fault : Fault} (h : fault ∈ c.failures) :
    ∃ id m n rest ended reason, c = .ended (.call id m (.releasing n rest)) ended ∧
      Registry.releaseFailure? ended = some reason ∧ fault = (Refusal.release reason).fault n := by
  cases c with
  | ended cause result =>
    cases cause with
    | call id m w =>
      cases w with
      | releasing n rest =>
        rw [failures, Option.mem_toList, Option.map_eq_some_iff] at h
        obtain ⟨reason, failed, rfl⟩ := h
        exact ⟨id, m, n, rest, result, reason, rfl, failed, rfl⟩
      | _ => cases h
    | _ => cases h
  | _ => cases h

theorem Control.length_failures_le (c : Control) : c.failures.length ≤ 1 := by
  unfold failures
  split
  · exact Option.length_toList_le
  · exact Nat.zero_le 1

theorem Control.record_of_passes {c : Control} (h : c.passes) (limit : Nat)
    (faults : List Fault) : c.record limit faults = faults := by
  cases c with
  | perform op => cases op <;> first | rfl | cases h
  | teardown agenda => rfl
  | ended cause result => cases cause <;> first | rfl | cases h
  | answered reply => rfl

namespace Result

theorem isOk_eq_false_iff {ε α : Type} (r : Result ε α) :
    r.isOk = false ↔ r.code ≠ .ok ∧ r.code ≠ .duplicateIgnored := by
  simp [isOk, Code.isSuccess]

end Result

namespace Registry

theorem releaseFailure?_eq_some_iff {ended : Except Thrown Returned} {reason : String} :
    releaseFailure? ended = some reason ↔ ReleaseFails ended reason := by
  constructor
  · intro h
    cases ended with
    | error thrown =>
      obtain rfl := Option.some.inj h
      cases thrown with
      | error what => exact .described what
      | foreign value => exact .foreign value
      | malformed => exact .malformed
    | ok returned =>
      cases returned with
      | outcome o => cases h
      | released r =>
        cases failed : r.isOk with
        | true => simp [releaseFailure?, Returned.asResult, failed] at h
        | false =>
          have code := r.isOk_eq_false_iff.mp failed
          simp only [releaseFailure?, Returned.asResult, failed, Bool.false_eq_true, if_false,
            Option.some.injEq] at h
          cases detail : r.detail with
          | none =>
            rw [detail, Option.getD_none] at h
            exact h ▸ .untold code detail
          | some text =>
            rw [detail, Option.getD_some] at h
            exact h ▸ .told code detail
  · intro h
    cases h with
    | told code detail =>
      simp [releaseFailure?, Returned.asResult, (Result.isOk_eq_false_iff _).mpr code, detail]
    | untold code detail =>
      simp [releaseFailure?, Returned.asResult, (Result.isOk_eq_false_iff _).mpr code, detail]
    | described what => rfl
    | malformed => rfl
    | foreign value => rfl

theorem recorded_take (limit : Nat) (faults : List Fault) (n : Name)
    (ended : Except Thrown Returned) :
    recorded limit (faults.take limit) n ended = (faults ++
      ((releaseFailure? ended).map fun reason => (Refusal.release reason).fault n).toList).take
        limit := by
  rw [recorded]
  cases releaseFailure? ended with
  | none =>
    rw [Option.map_none, Option.toList_none, List.append_nil]
  | some reason => exact keep_take limit faults _

end Registry

/-- Between two times that the report is taken, a step adds the failure that it has to record. -/
theorem Control.record_take {c : Control} (h : c ≠ .perform (.registry .takeFaults)) (limit : Nat)
    (faults : List Fault) :
    c.record limit (faults.take limit) = (faults ++ c.failures).take limit := by
  have kept : faults.take limit = (faults ++ []).take limit := by rw [List.append_nil]
  cases c with
  | perform op =>
    cases op with
    | registry q =>
      cases q with
      | takeFaults => exact absurd rfl h
      | _ => exact kept
    | _ => exact kept
  | ended cause result =>
    cases cause with
    | call id m w =>
      cases w with
      | releasing n rest => exact Registry.recorded_take limit faults n result
      | _ => exact kept
    | _ => exact kept
  | _ => exact kept

namespace Registry

/-- Of all requests only taking the report changes it. -/
theorem releaseFaults_request (r : Registry) (q : Request) (limit : Nat) :
    (r.request q).registry.releaseFaults =
      (Control.perform (.registry q)).record limit r.releaseFaults := by
  cases q with
  | register n object =>
    obtain ⟨_, _, _, h, -⟩ := r.register_eq n object
    rw [request, h]
    rfl
  | lookup n early =>
    rcases r.lookup_eq n early with ⟨_, h⟩ | ⟨_, h⟩
    · rw [request, h]
      rfl
    · rw [request, h]
      rfl
  | stage n factory =>
    obtain ⟨_, _, _, h, -⟩ := r.stage_eq n factory
    rw [request, h]
    rfl
  | getOrCreate n factory =>
    rcases r.getOrCreate_eq n factory with ⟨_, _, h⟩ | ⟨_, _, _, _, _, _, h⟩
    · rw [request, h]
      rfl
    · rw [request, h]
      rfl
  | getOrCreateBare n factory =>
    rw [request, Advance.registry_bare]
    rcases r.getOrCreate_eq n factory with ⟨_, _, h⟩ | ⟨_, _, _, _, _, _, h⟩
    · rw [h]
      rfl
    · rw [h]
      rfl
  | suppress faults =>
    obtain ⟨_, h⟩ := r.foldl_suppress_eq faults
    rw [request, h]
    rfl
  | _ => rfl

theorem releaseFaults_teardown (r : Registry) (agenda : Agenda) :
    (r.teardown agenda).registry.releaseFaults = r.releaseFaults := by
  have same := congrArg (fun a => a.registry.releaseFaults)
    (r.teardown_alike r.releaseFaults agenda)
  exact same

theorem releaseFaults_resume (r : Registry) (ended : Except Thrown Returned) (w : Waiting)
    (id : CallbackId) (m : Nat) : (r.resume ended w).registry.releaseFaults =
      (Control.ended (.call id m w) ended).record r.config.limit r.releaseFaults := by
  cases w with
  | creating n outermost bare =>
    obtain ⟨_, _, h⟩ := r.resume_creating_eq n outermost bare ended
    rw [h]
    rfl
  | promoting n f =>
    obtain ⟨_, _, _, h, -⟩ := r.madeEarly_eq n f ended
    rw [resume, h]
    rfl
  | releasing n rest => exact congrArg Registry.releaseFaults (r.registry_released n rest ended)

end Registry

namespace Session

variable {env : Environment} {s t : Session} {n : Name} {rest : Agenda}

/-- Only a teardown waits for a release callback, which it has called for the name. -/
theorem Public.dealing_of_calls (hp : s.Public) (h : s.Calls (.releasing n rest)) :
    ∃ id, s.control.dealing = .calls n (.callback id) := by
  obtain ⟨a, waits, id, move, calling⟩ := h
  obtain ⟨_, deals, -⟩ := move.deals hp
  have called := deals.called
  rw [calling] at called
  refine ⟨id, ?_⟩
  cases dealing : s.control.dealing with
  | calls m handle =>
    rw [dealing] at called
    cases handle with
    | callback id' =>
      obtain ⟨rfl, rfl⟩ := Prod.mk.inj (List.cons.inj called).1
      rfl
    | null => cases called
    | idle => cases called
  | _ =>
    rw [dealing] at called
    cases called

theorem going_of_dealing {handle : Handle} (h : s.control.dealing = .calls n handle) :
    ∀ cause result, s.control ≠ .ended cause result := by
  intro cause result ended
  rw [ended] at h
  cases h

theorem releaseFaults_step (hp : s.Public) (hs : s.step env = some t) :
    t.world.registry.releaseFaults =
      s.control.record s.world.registry.config.limit s.world.registry.releaseFaults := by
  obtain ⟨a, rest, move, hr, -⟩ := step_cases hs
  rw [hr]
  cases move with
  | pass hc =>
    rw [Control.record_of_passes hc]
    rfl
  | request hc =>
    rw [hc]
    exact Registry.releaseFaults_request _ _ _
  | part hc => exact absurd (hp.operation _ hc) (by simp [Operation.isPublic])
  | teardown hc =>
    rw [hc]
    exact Registry.releaseFaults_teardown _ _
  | resume hc _ =>
    rw [hc]
    exact Registry.releaseFaults_resume _ _ _ _ _

end Session

namespace Life

variable {l : Life} {i j k : Nat} {n : Name} {ended : Except Thrown Returned} {fault : Fault}

/-- The release callback that is called for the name at `j` has ended at `i`. -/
structure Releases (l : Life) (j i : Nat) (n : Name) (ended : Except Thrown Returned) : Prop where
  calls : ∃ id, l.dealing j = .calls n (.callback id)
  ends : ∃ rest, l.Ends j i (.releasing n rest) ended

/-- A release callback has failed at this point, and this is the fault to report. -/
def Fails (l : Life) (i : Nat) (fault : Fault) : Prop :=
  ∃ j n ended reason, l.Releases j i n ended ∧ ReleaseFails ended reason ∧
    fault = { code := .destructionFailed, name := n, message := reason }

/-- A callback ends once, and only one of them at a point. -/
theorem Releases.call_iff_end {i' j' : Nat} {n' : Name} {ended' : Except Thrown Returned}
    (h : l.Releases j i n ended) (h' : l.Releases j' i' n' ended') : j = j' ↔ i = i' := by
  obtain ⟨⟨_, calls⟩, _, ends⟩ := h
  obtain ⟨⟨_, calls'⟩, _, ends'⟩ := h'
  constructor
  · rintro rfl
    exact ends.end_unique ends'
  · rintro rfl
    exact ends.begin_unique ends' (Session.going_of_dealing calls) (Session.going_of_dealing calls')

/-- Wherever the program of a release callback has ended, a teardown has called it. -/
theorem exists_releases {id : CallbackId} {m : Nat} {rest : Agenda}
    (hc : (l.after i).control = .ended (.call id m (.releasing n rest)) ended) :
    ∃ j, l.Releases j i n ended := by
  obtain ⟨j, -, calls, ends⟩ := exists_calls_of_ended hc
  exact ⟨j, (l.reaches_after j).isPublic.dealing_of_calls calls, rest, ends⟩

/-- The faults that the step which follows a point has to record. -/
def failures (l : Life) (i : Nat) : List Fault := (l.after i).control.failures

theorem mem_failures_iff : fault ∈ l.failures i ↔ l.Fails i fault := by
  constructor
  · intro h
    obtain ⟨id, m, n, rest, ended, reason, control, failed, rfl⟩ := Control.mem_failures h
    obtain ⟨j, releases⟩ := exists_releases control
    exact ⟨j, n, ended, reason, releases, Registry.releaseFailure?_eq_some_iff.mp failed, rfl⟩
  · rintro ⟨j, n, ended, reason, releases, failed, rfl⟩
    obtain ⟨rest, ends⟩ := releases.ends
    obtain ⟨id, m, control⟩ := ends.control
    rw [failures, control, Control.failures, Registry.releaseFailure?_eq_some_iff.mpr failed]
    exact List.mem_singleton_self _

/-- These are the failures at points from `j` on and before `k`, in the order of the points. -/
def FailuresBetween (l : Life) (j k : Nat) (faults : List Fault) : Prop :=
  ∃ points : List Nat, points.Pairwise (· < ·) ∧
    (∀ i, i ∈ points ↔ j ≤ i ∧ i < k ∧ ∃ fault, l.Fails i fault) ∧
    List.Forall₂ l.Fails points faults

theorem failuresBetween_self (l : Life) (k : Nat) : l.FailuresBetween k k [] := by
  refine ⟨[], .nil, fun i => ?_, .nil⟩
  simp
  omega

theorem FailuresBetween.succ {faults : List Fault} (h : l.FailuresBetween j k faults)
    (le : j ≤ k) : l.FailuresBetween j (k + 1) (faults ++ l.failures k) := by
  obtain ⟨points, sorted, members, failed⟩ := h
  have short := (l.after k).control.length_failures_le
  cases now : l.failures k with
  | nil =>
    rw [List.append_nil]
    refine ⟨points, sorted, fun i => (members i).trans ?_, failed⟩
    have none : ¬ ∃ fault, l.Fails k fault := by
      rintro ⟨fault, fails⟩
      have recorded := mem_failures_iff.mpr fails
      rw [now] at recorded
      cases recorded
    constructor
    · rintro ⟨hj, hk, fails⟩
      exact ⟨hj, Nat.lt_succ_of_lt hk, fails⟩
    · rintro ⟨hj, hk, fails⟩
      rcases Nat.lt_succ_iff_lt_or_eq.mp hk with hk | rfl
      · exact ⟨hj, hk, fails⟩
      · exact absurd fails none
  | cons fault others =>
    obtain rfl : others = [] := by
      rw [show (l.after k).control.failures = _ from now, List.length_cons] at short
      exact List.eq_nil_of_length_eq_zero (by omega)
    have fails : l.Fails k fault := mem_failures_iff.mp (now ▸ List.mem_cons_self)
    refine ⟨points ++ [k], ?_, fun i => ?_, List.rel_append failed (.cons fails .nil)⟩
    · rw [List.pairwise_append]
      refine ⟨sorted, List.pairwise_singleton _ _, fun i hi k' hk' => ?_⟩
      rw [List.mem_singleton] at hk'
      rw [hk']
      exact ((members i).mp hi).2.1
    · rw [List.mem_append, List.mem_singleton, members]
      constructor
      · rintro (⟨hj, hk, fails⟩ | rfl)
        · exact ⟨hj, Nat.lt_succ_of_lt hk, fails⟩
        · exact ⟨le, i.lt_succ_self, fault, fails⟩
      · rintro ⟨hj, hk, fails⟩
        rcases Nat.lt_succ_iff_lt_or_eq.mp hk with hk | rfl
        · exact .inl ⟨hj, hk, fails⟩
        · exact .inr rfl

/-- The last time that somebody asked for the report before `k` was right before `since`. If nobody
has asked for it yet, everything since the start counts. -/
structure LastTaken (l : Life) (since k : Nat) : Prop where
  le : since ≤ k
  takes : since = 0 ∨ ∃ i, since = i + 1 ∧ (l.after i).control = .perform (.registry .takeFaults)
  last : ∀ i, since ≤ i → i < k → (l.after i).control ≠ .perform (.registry .takeFaults)

theorem releaseFaults_succ (l : Life) (k : Nat) :
    (l.after (k + 1)).world.registry.releaseFaults =
      (l.after k).control.record l.config.limit (l.after k).world.registry.releaseFaults := by
  cases hs : (l.after k).step l.environment with
  | none =>
    rw [after_halted hs, Control.record_of_passes (Session.passes_of_halted hs)]
  | some t =>
    rw [after_succ hs, ← l.config_after k]
    exact Session.releaseFaults_step (l.reaches_after k).isPublic hs

/-- What is recorded at a point: the first failures since the report was last taken. -/
theorem exists_recorded (l : Life) (k : Nat) : ∃ since faults, l.LastTaken since k ∧
    l.FailuresBetween since k faults ∧
    (l.after k).world.registry.releaseFaults = faults.take l.config.limit := by
  induction k with
  | zero =>
    refine ⟨0, [], ⟨le_rfl, .inl rfl, fun i _ hi => absurd hi i.not_lt_zero⟩,
      l.failuresBetween_self 0, ?_⟩
    rw [after, registry_start, List.take_nil]
    rfl
  | succ k ih =>
    obtain ⟨since, faults, taken, failed, recorded⟩ := ih
    by_cases takes : (l.after k).control = .perform (.registry .takeFaults)
    · refine ⟨k + 1, [], ⟨le_rfl, .inr ⟨k, rfl, takes⟩, fun i hi hk => by omega⟩,
        l.failuresBetween_self (k + 1), ?_⟩
      rw [releaseFaults_succ, takes, List.take_nil]
      rfl
    · refine ⟨since, _, ⟨Nat.le_succ_of_le taken.le, taken.takes, fun i hi hk => ?_⟩,
        failed.succ taken.le, ?_⟩
      · rcases Nat.lt_succ_iff_lt_or_eq.mp hk with hk | rfl
        · exact taken.last i hi hk
        · exact takes
      · rw [releaseFaults_succ, recorded]
        exact Control.record_take takes _ _

/-- Whoever takes the report gets, in the order in which they happened, the first failures of
release callbacks since it was last taken, as many as the limit allows. Every callback that was
called for a name and has failed is one of them, and ends at a point of its own. -/
theorem report_exact (l : Life) {k : Nat}
    (hc : (l.after k).control = .perform (.registry .takeFaults)) :
    (∃ since faults, l.LastTaken since k ∧ l.FailuresBetween since k faults ∧
      l.Returns k (k + 1) (.ok (.faults (faults.take l.config.limit)))) ∧
    ∀ j j' i i' n n' ended ended', l.Releases j i n ended → l.Releases j' i' n' ended' →
      (j = j' ↔ i = i') := by
  obtain ⟨since, faults, taken, failed, recorded⟩ := l.exists_recorded k
  refine ⟨⟨since, faults, taken, failed, ?_⟩, fun _ _ _ _ _ _ _ _ h h' => h.call_iff_end h'⟩
  rw [← recorded]
  exact (returns_at_once hc rfl).1

/-- Of four release handles, one destroys another name before it throws. That name fails first, and
there is room for two failures. -/
def nested : Life := ofConfig { limit := 2 }
  (.perform (.registry (.disposable "a" (.callback "f"))) fun _ =>
    .perform (.registry (.disposable "b" (.callback "g"))) fun _ =>
    .perform (.registry (.disposable "c" (.callback "h"))) fun _ =>
    .perform (.registry (.disposable "d" (.callback "i"))) fun _ =>
    .perform (.registry .destroyAll) fun _ =>
    .perform (.registry .takeFaults) fun _ => .finish (.ok .nothing))
  (fun id _ =>
    if id = "f" then .finish (.error (.foreign 42))
    else if id = "g" then .finish (.ok (.released (.report .invalidState none)))
    else if id = "h" then
      .perform (.registry (.destroy "a")) fun _ => .finish (.error (.error "late"))
    else .finish (.ok (.released (.report .duplicateIgnored (some "again")))))
  ⟨rfl, fun _ => ⟨rfl, fun _ => ⟨rfl, fun _ => ⟨rfl, fun _ => ⟨rfl, fun _ =>
    ⟨rfl, fun _ => trivial⟩⟩⟩⟩⟩⟩
  (by
    intro id _
    split
    · trivial
    · split
      · trivial
      · split
        · exact ⟨rfl, fun _ => trivial⟩
        · trivial)

theorem report_nested : ∃ since faults, nested.LastTaken since 44 ∧
    nested.FailuresBetween since 44 faults ∧
    nested.Returns 44 45 (.ok (.faults (faults.take 2))) ∧
    faults.take 2 =
      [⟨.destructionFailed, "a", "unknown exception", []⟩, ⟨.destructionFailed, "c", "late", []⟩] := by
  have takes : (nested.after 44).control = .perform (.registry .takeFaults) := rfl
  obtain ⟨⟨since, faults, taken, failed, returns⟩, -⟩ := nested.report_exact takes
  have given : (nested.after 45).control = .answered (.ok (.faults
      [⟨.destructionFailed, "a", "unknown exception", []⟩,
        ⟨.destructionFailed, "c", "late", []⟩])) := rfl
  have same := Control.answered.inj (returns.control.symm.trans given)
  exact ⟨since, faults, taken, failed, returns, Answer.faults.inj (Except.ok.inj same)⟩

end Life

end Singletons
