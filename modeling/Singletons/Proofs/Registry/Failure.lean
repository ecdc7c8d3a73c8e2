import Singletons.Proofs.Cache.Mirror
import Singletons.Proofs.Registry.Suppression
import Singletons.Proofs.Session.Nesting
/-!
# What a failed creation leaves

A creation that fails before its factory is called changes nothing at all. If the factory was
called, everything stays as the factory left it, but for what the creation has set up itself: the
flag of its name, and the scope of the suppressed faults if no other factory was running.
-/

namespace Singletons

/-- No creation has succeeded with this reply: it reports a failure, or something was thrown. -/
def Reply.Fails (reply : Reply) : Prop :=
  ∀ result, reply = .ok (.creation result) → result.isOk = false

/-- What the end of a creation changes that binds nothing. Its name is struck unless it is excluded
then, and the suppressed faults are given up if no other creation collects them. -/
structure Registry.Closes (r r' : Registry) (n : Name) (outermost : Prop) : Prop where
  config : r'.config = r.config
  cache : r'.cache = r.cache
  graph : r'.graph = r.graph
  disposables : r'.disposables = r.disposables
  releaseFaults : r'.releaseFaults = r.releaseFaults
  destroying : r'.destroying = r.destroying
  excluded : r'.flags.excluded = r.flags.excluded
  inCreation : ∀ m, r'.flags.isInCreation m = true ↔
    r.flags.isInCreation m = true ∧ (m = n → r.flags.isExcluded n = true)
  givenUp : outermost → r'.suppressed = none
  collecting : ¬ outermost → r'.suppressed = r.suppressed

namespace Flags

theorem excluded_unmark (f : Flags) (n : Name) : (f.unmark n).2.excluded = f.excluded := by
  unfold unmark
  split <;> rfl

end Flags

namespace Registry

variable {r : Registry} {n : Name} {outermost bare : Bool} {ended : Except Thrown Returned}
  {reply : Reply}

/-- A factory that makes an object lets its creation succeed. -/
theorem answered_of_made {o : Object} (h : made? ended = some o) :
    (r.resume ended (.creating n outermost bare)).progress =
      .answered (.ok (.creation (.done o))) := by
  cases ended with
  | error thrown => cases h
  | ok returned =>
    have made : returned.asOutcome = .created (some o) := by
      rw [made?] at h
      cases outcome : returned.asOutcome with
      | created object =>
        rw [outcome] at h
        exact congrArg Outcome.created h
      | alreadyPresent fault =>
        rw [outcome] at h
        cases h
      | failed fault =>
        rw [outcome] at h
        cases h
    cases bare with
    | false =>
      show (r.created n outermost (.ok returned)).progress = _
      rw [created, made]
    | true =>
      show (r.created n outermost (.ok returned)).bare.progress = _
      rw [created, made]
      rfl

theorem made?_of_fails (failed : reply.Fails)
    (h : (r.resume ended (.creating n outermost bare)).progress = .answered reply) :
    made? ended = none := by
  cases made : made? ended with
  | none => rfl
  | some o =>
    rw [answered_of_made made] at h
    have success := failed (.done o) (Progress.answered.inj h).symm
    cases success

theorem closes_endCreation (r : Registry) (n : Name) (outermost : Bool) :
    r.Closes (r.endCreation n outermost).1 n (outermost = true) where
  config := rfl
  cache := rfl
  graph := rfl
  disposables := rfl
  releaseFaults := rfl
  destroying := rfl
  excluded := r.flags.excluded_unmark n
  inCreation m := by
    show (r.flags.unmark n).2.isInCreation m = true ↔ _
    rw [Flags.isInCreation_unmark, Bool.and_eq_true, Bool.or_eq_true, decide_eq_true_eq,
      imp_iff_not_or]
  givenUp h := if_pos h
  collecting h := if_neg h

/-- However a factory fails, its creation does nothing but close what it has opened. -/
theorem closes_resume (failed : reply.Fails)
    (h : (r.resume ended (.creating n outermost bare)).progress = .answered reply) :
    r.Closes (r.resume ended (.creating n outermost bare)).registry n (outermost = true) := by
  have nothing := made?_of_fails failed h
  obtain ⟨_, _, resumed⟩ := r.resume_creating_eq n outermost bare ended
  rw [resumed, nothing]
  exact r.closes_endCreation n outermost

/-- Why a creation fails without a call of its factory. -/
def Rejects (r : Registry) (n : Name) (factory : Option CallbackId) : Prop :=
  factory = none ∨ r.destroying = true ∨
    (r.flags.isInCreation n = true ∧ r.flags.isExcluded n = false)

theorem rejects_getOrCreate {factory : Option CallbackId} (failed : reply.Fails)
    (h : (r.getOrCreate n factory).progress = .answered reply) :
    (r.getOrCreate n factory).registry = r ∧ r.Rejects n factory := by
  rcases r.getOrCreate_eq n factory with ⟨_, _, answered⟩ | ⟨_, _, _, _, _, _, calling⟩
  · refine ⟨congrArg Advance.registry answered, ?_⟩
    cases factory with
    | none => exact .inl rfl
    | some f =>
      right
      cases bound : r.cache.find? n with
      | some o =>
        rw [getOrCreate, bound] at h
        cases failed (.done o) (Progress.answered.inj h).symm
      | none =>
        by_cases standing : r.destroying = false
        · right
          cases marks : (r.flags.mark n).1 with
          | true =>
            obtain ⟨_, calling⟩ := getOrCreate_calling f bound standing marks
            rw [calling] at h
            cases h
          | false =>
            unfold Flags.mark at marks
            split at marks
            · cases marks
            · rename_i checked
              exact ⟨by simpa using marks, Bool.eq_false_iff.mpr checked⟩
        · exact .inl (Bool.not_eq_false _ ▸ standing)
  · rw [calling] at h
    cases h

/-- To ask for a bare answer makes no difference to a failure. -/
theorem fails_of_bare {full : Reply} (failed : Reply.Fails (full.map Answer.bare)) :
    full.Fails := by
  rintro result rfl
  have whole := failed result.bare rfl
  rwa [Result.isOk_bare] at whole

theorem rejects_request {q : Request} {factory : Option CallbackId}
    (hq : q.creation? = some (n, factory)) (failed : reply.Fails)
    (h : (r.request q).progress = .answered reply) :
    (r.request q).registry = r ∧ r.Rejects n factory := by
  cases q with
  | getOrCreate m f =>
    obtain ⟨rfl, rfl⟩ := Prod.mk.inj (Option.some.inj hq)
    exact rejects_getOrCreate failed h
  | getOrCreateBare m f =>
    obtain ⟨rfl, rfl⟩ := Prod.mk.inj (Option.some.inj hq)
    obtain ⟨full, answered, rfl⟩ := Advance.answered_of_bare h
    exact rejects_getOrCreate (fails_of_bare failed) answered
  | _ => cases hq

end Registry

namespace Session

variable {s : Session} {q : Request} {n : Name}

theorem access_of_creation {factory : Option CallbackId}
    (hc : s.control = .perform (.registry q)) (hq : q.creation? = some (n, factory)) :
    s.access = .leaves := by
  rw [access, hc]
  cases q with
  | getOrCreate m f => rfl
  | getOrCreateBare m f => rfl
  | _ => cases hq

end Session

namespace Life

variable {l : Life} {i j k : Nat} {n : Name} {outermost bare : Bool}
  {ended : Except Thrown Returned} {reply : Reply}

/-- A creation that goes on after its factory, and fails, closes what it has opened. -/
theorem Ends.closes (h : l.Ends j i (.creating n outermost bare) ended) (failed : reply.Fails)
    (answered : ((l.after i).world.registry.resume ended (.creating n outermost bare)).progress =
      .answered reply) :
    (l.after i).world.registry.Closes (l.after (i + 1)).world.registry n (outermost = true) ∧
      l.tiers (i + 1) = l.tiers i := by
  obtain ⟨id, m, control⟩ := h.control
  have moves := Session.isSome_step l.environment (congrArg Control.passes control)
  have registry := Session.registry_of_ended control (step_after moves)
  have nothing := Registry.made?_of_fails failed answered
  have leaves : l.access i = .leaves := by
    rw [Life.access, Session.access, control]
    show (Waiting.creating n outermost bare).access ended = _
    rw [Waiting.access, nothing]
    rfl
  refine ⟨?_, ?_⟩
  · rw [registry]
    exact Registry.closes_resume failed answered
  · rw [tiers, leaves]
    rfl

/-- While the factory of a creation runs, faults are collected. -/
theorem Ends.collects (h : l.Ends j i (.creating n outermost bare) ended) :
    ∃ faults, (l.after i).world.registry.suppressed = some faults := by
  have running : (l.after i).creating ≠ [] := by
    have waits := (h.waits i h.later le_rfl).mem_waiting
    have creates : n ∈ (l.after i).creating :=
      List.mem_flatMap.mpr ⟨_, waits, List.mem_singleton_self n⟩
    exact List.ne_nil_of_mem creates
  have collecting := mt (l.scoped_after i).collecting.mp running
  exact Option.ne_none_iff_exists'.mp collecting

/-- A creation that fails, or that an exception leaves, changes nothing of its own. If its factory
was not called, all is as it was before. If the factory was called, all is as the factory left it,
except that the name is struck, unless it is excluded then, and the scope of the suppressed faults
is closed, if no factory was running before; otherwise it stays open with what was collected. -/
theorem failure_changes_nothing (l : Life) {q : Request} {factory : Option CallbackId}
    (hc : (l.after j).control = .perform (.registry q)) (hq : q.creation? = some (n, factory))
    (h : l.Returns j k reply) (failed : reply.Fails) :
    (k = j + 1 ∧ (l.after j).world.registry.Rejects n factory ∧
      (l.after k).world.calls = (l.after j).world.calls ∧
      (l.after k).world.registry = (l.after j).world.registry ∧ l.tiers k = l.tiers j) ∨
    ∃ f i outermost bare ended, factory = some f ∧ k = i + 1 ∧
      ((l.after j).world.registry.request q).progress = .calling f (.creating n outermost bare) ∧
      l.Ends j i (.creating n outermost bare) ended ∧
      (l.after i).world.registry.Closes (l.after k).world.registry n ((l.after j).creating = []) ∧
      l.tiers k = l.tiers i ∧
      ((l.after j).creating ≠ [] → ∃ faults,
        (l.after i).world.registry.suppressed = some faults ∧
          (l.after k).world.registry.suppressed = some faults) := by
  rcases Registry.request_creation hq (r := (l.after j).world.registry) with
    ⟨given, answered⟩ | ⟨f, bare, called, calling, -⟩
  · left
    obtain ⟨rfl, rfl⟩ := h.of_answered hc answered
    obtain ⟨-, registry, calls⟩ := returns_at_once hc answered
    obtain ⟨same, rejects⟩ := Registry.rejects_request hq failed answered
    refine ⟨rfl, rejects, calls, registry.trans same, ?_⟩
    rw [tiers, show l.access j = .leaves from Session.access_of_creation hc hq]
    rfl
  · right
    obtain ⟨i, ended, rfl, ends, answered⟩ := h.of_calls hc calling fun r ended =>
      r.exists_answered_creating n _ bare ended
    obtain ⟨closes, same⟩ := ends.closes failed answered
    have outermost : (l.after j).world.registry.suppressed.isNone = true ↔
        (l.after j).creating = [] :=
      Option.isNone_iff_eq_none.trans (l.scoped_after j).collecting
    rw [propext outermost] at closes
    refine ⟨f, i, _, bare, ended, called, rfl, calling, ends, closes, same, fun inner => ?_⟩
    obtain ⟨faults, collected⟩ := ends.collects
    exact ⟨faults, collected, (closes.collecting inner).trans collected⟩

/-- A factory hands in a fault and creates another name, whose factory registers a third one and is
left by an exception. -/
def unwound : Life := plain
  (.perform (.registry (.getOrCreate "a" (some "f"))) fun _ => .finish (.ok .nothing))
  (fun id =>
    if id = "f" then
      .perform (.registry (.suppress [⟨.creationFailed, "c", "first", []⟩])) fun _ =>
      .perform (.registry (.getOrCreate "b" (some "g"))) fun _ =>
      .finish (.ok (.outcome (.created (some "x"))))
    else
      .perform (.registry (.register "c" (some "y"))) fun _ => .finish (.error (.foreign 7)))
  (request_public "a" "f")
  (by
    intro id
    split
    · exact ⟨rfl, fun _ => ⟨rfl, fun _ => trivial⟩⟩
    · exact ⟨rfl, fun _ => trivial⟩)

/-- The inner creation takes its own flag back. The third name stays registered, the outer creation
in progress, and what it has collected there. -/
theorem inner_failure_unwound :
    unwound.Returns 3 7 (.error (.foreign 7)) ∧ (unwound.after 3).creating = ["a"] ∧
    (∃ f i outermost bare ended, some "g" = some f ∧ 7 = i + 1 ∧
      unwound.Ends 3 i (.creating "b" outermost bare) ended ∧
      (unwound.after i).world.registry.Closes (unwound.after 7).world.registry "b" False ∧
      ∃ faults, (unwound.after i).world.registry.suppressed = some faults ∧
        (unwound.after 7).world.registry.suppressed = some faults) ∧
    (unwound.after 6).world.registry.flags.isInCreation "b" = true ∧
    (unwound.after 7).world.registry.flags.isInCreation "b" = false ∧
    (unwound.after 7).world.registry.flags.isInCreation "a" = true ∧
    (unwound.after 7).object? "c" = some "y" := by
  have returns : unwound.Returns 3 7 (.error (.foreign 7)) :=
    returns_of_waiting (by decide) rfl rfl (by decide)
  have outer : (unwound.after 3).creating = ["a"] := rfl
  refine ⟨returns, outer, ?_, by decide +kernel, by decide +kernel, by decide +kernel,
    by decide +kernel⟩
  rcases unwound.failure_changes_nothing rfl rfl returns (fun _ h => by cases h) with
    ⟨same, -⟩ | ⟨f, i, outermost, bare, ended, called, last, -, ends, closes, -, collecting⟩
  · cases same
  · have inner : (unwound.after 3).creating ≠ [] := by simp [outer]
    rw [eq_false inner] at closes
    exact ⟨f, i, outermost, bare, ended, called, last, ends, closes, collecting inner⟩

end Life

end Singletons
