import Mathlib.Data.List.DropRight
import Mathlib.Data.List.Induction
import Singletons.Logging.Request
import Singletons.Proofs.Logging.Loggers
import Singletons.Proofs.Logging.Setup
/-!
# What a router was asked for

Whether a router runs, which tags are silenced and which have a logger can be read off the
operations that it was asked for: something is so because of one of them, unless a later one has
put an end to it. The sinks of a logger are those that had been added when it was made.
-/

namespace Singletons.Logging

/-- Whether an operation leaves no logger and no sink. -/
def RouterRequest.clears : RouterRequest → Bool
  | stop => true
  | new => true
  | _ => false

/-- The sink that an operation adds for a tag, if it can be opened. -/
def RouterRequest.added? (tag : String) : RouterRequest → Option Sink
  | addSink t sink obstacle? =>
    if t = tag ∧ Router.problem? obstacle? sink = none then some sink else none
  | _ => none

/-- The operations on a router, the first one first. A router that is made anew begins afresh. -/
abbrev History := List RouterRequest

namespace History

/-- The router that the operations leave. -/
def router (ops : History) : Router := ops.foldl (fun r op => (r.serve op).state) {}

/-- Something began with an operation, given the ones before it, and none has ended it since. -/
def Lasts (begins : History → RouterRequest → Prop) (ends : RouterRequest → Prop)
    (ops : History) : Prop :=
  ∃ before op later, ops = before ++ op :: later ∧ begins before op ∧ ∀ o ∈ later, ¬ ends o

/-- Of the operations that start and stop the router, the last one was a start. -/
def Runs : History → Prop :=
  Lasts (fun _ op => op = .start) fun op => op = .stop ∨ op = .new

/-- Of the operations that enable and disable the tag, the last one has disabled it. -/
def Silences (ops : History) (tag : String) : Prop :=
  ops.Lasts (fun _ op => op = .disable tag) fun op => op = .enable tag ∨ op = .new

/-- An operation needs the logger of a tag, which is made if there is none. -/
def Needs (before : History) (op : RouterRequest) (tag : String) : Prop :=
  before.Runs ∧ (op = .register tag ∨
    ¬ before.Silences tag ∧ ∃ severity text, op = .log tag severity text)

/-- The tag has a logger. -/
def HasLogger (ops : History) (tag : String) : Prop :=
  ops.Lasts (fun before op => before.Needs op tag) (·.clears)

/-- The sinks added for a tag since no operation has dropped them, the first one first. -/
def added (ops : History) (tag : String) : List Sink :=
  (ops.rtakeWhile fun op => !op.clears).filterMap (·.added? tag)

/-- The tag has a logger, which was made by the operation right after `made`. -/
def Made (ops : History) (tag : String) (made : History) : Prop :=
  ops.Lasts (fun before op => before = made ∧ before.Needs op tag ∧ ¬ before.HasLogger tag)
    (·.clears)

/-- A message under the tag meets a logger made right after `before`: the one that the tag has, or
one that the message itself needs. -/
def Met (ops : History) (tag : String) (before : History) : Prop :=
  ops.Made tag before ∨ (¬ ops.HasLogger tag ∧ before = ops)

/-- An operation of a longer history is the last one, or one of those before. -/
theorem concat_eq_iff {ops before later : History} {last op : RouterRequest} :
    ops ++ [last] = before ++ op :: later ↔
      (before = ops ∧ op = last ∧ later = []) ∨
        ∃ rest, later = rest ++ [last] ∧ ops = before ++ op :: rest := by
  constructor
  · intro same
    rcases List.eq_nil_or_concat later with rfl | ⟨rest, final, rfl⟩
    · obtain ⟨rfl, one⟩ := List.append_inj' same rfl
      exact .inl ⟨rfl, (List.singleton_inj.mp one).symm, rfl⟩
    · rw [List.concat_eq_append, ← List.cons_append, ← List.append_assoc] at same
      obtain ⟨rfl, one⟩ := List.append_inj' same rfl
      refine .inr ⟨rest, ?_, rfl⟩
      rw [List.concat_eq_append, one]
  · rintro (⟨rfl, rfl, rfl⟩ | ⟨rest, rfl, rfl⟩)
    · rfl
    · simp

section Lasts

variable {begins : History → RouterRequest → Prop} {ends : RouterRequest → Prop}

theorem not_lasts_nil : ¬ Lasts begins ends [] := by
  rintro ⟨before, op, later, same, -⟩
  simp at same

theorem lasts_concat {ops : History} {op : RouterRequest} :
    Lasts begins ends (ops ++ [op]) ↔ begins ops op ∨ (ops.Lasts begins ends ∧ ¬ ends op) := by
  constructor
  · rintro ⟨before, o, later, same, begun, kept⟩
    rcases concat_eq_iff.mp same with ⟨rfl, rfl, rfl⟩ | ⟨rest, rfl, rfl⟩
    · exact .inl begun
    · refine .inr ⟨⟨before, o, rest, rfl, begun, fun p hp => kept p ?_⟩, kept op ?_⟩
      · exact List.mem_append_left _ hp
      · exact List.mem_append_right _ List.mem_cons_self
  · rintro (begun | ⟨⟨before, o, rest, rfl, begun, kept⟩, kept'⟩)
    · exact ⟨ops, op, [], rfl, begun, nofun⟩
    · refine ⟨before, o, rest ++ [op], by simp, begun, fun p hp => ?_⟩
      rcases List.mem_append.mp hp with hp | hp
      · exact kept p hp
      · exact List.mem_singleton.mp hp ▸ kept'

end Lasts

theorem added_concat (ops : History) (op : RouterRequest) (tag : String) :
    added (ops ++ [op]) tag =
      if op.clears then [] else ops.added tag ++ (op.added? tag).toList := by
  rw [added, List.rtakeWhile_concat]
  cases op.clears with
  | true => rfl
  | false =>
    rw [Bool.not_false, if_pos rfl, if_neg Bool.false_ne_true, List.filterMap_append, added]
    rfl

theorem made_concat {ops made : History} {op : RouterRequest} {tag : String} :
    Made (ops ++ [op]) tag made ↔
      (ops = made ∧ ops.Needs op tag ∧ ¬ ops.HasLogger tag) ∨ (ops.Made tag made ∧ ¬ op.clears) :=
  lasts_concat

theorem Made.hasLogger {ops before : History} {tag : String} (made : ops.Made tag before) :
    ops.HasLogger tag := by
  obtain ⟨before, op, later, same, ⟨-, needs, -⟩, kept⟩ := made
  exact ⟨before, op, later, same, needs, kept⟩

theorem Needs.not_clears {before : History} {op : RouterRequest} {tag : String}
    (needs : before.Needs op tag) : ¬ op.clears := by
  rcases needs.2 with rfl | ⟨-, severity, text, rfl⟩ <;> exact Bool.false_ne_true

theorem exists_made {ops : History} {tag : String} (has : ops.HasLogger tag) :
    ∃ before, ops.Made tag before := by
  induction ops using List.reverseRecOn with
  | nil => exact absurd has not_lasts_nil
  | append_singleton ops op ih =>
    by_cases had : HasLogger ops tag
    · obtain ⟨before, made⟩ := ih had
      refine ⟨before, made_concat.mpr (.inr ⟨made, ?_⟩)⟩
      rcases lasts_concat.mp has with needs | ⟨-, kept⟩
      · exact needs.not_clears
      · exact kept
    · rcases lasts_concat.mp has with needs | ⟨had', -⟩
      · exact ⟨ops, made_concat.mpr (.inl ⟨rfl, needs, had⟩)⟩
      · exact absurd had' had

theorem Made.unique {ops before before' : History} {tag : String} (made : ops.Made tag before)
    (made' : ops.Made tag before') : before = before' := by
  induction ops using List.reverseRecOn with
  | nil => exact absurd made.hasLogger not_lasts_nil
  | append_singleton ops op ih =>
    rcases made_concat.mp made with ⟨same, -, new⟩ | ⟨made, -⟩ <;>
      rcases made_concat.mp made' with ⟨same', -, new'⟩ | ⟨made', -⟩
    · rw [← same, same']
    · exact absurd made'.hasLogger new
    · exact absurd made.hasLogger new'
    · exact ih made made'

theorem existsUnique_met (ops : History) (tag : String) : ∃! before, ops.Met tag before := by
  by_cases has : ops.HasLogger tag
  · obtain ⟨before, made⟩ := exists_made has
    refine ⟨before, .inl made, ?_⟩
    rintro before' (made' | ⟨none, -⟩)
    · exact made'.unique made
    · exact absurd has none
  · refine ⟨ops, .inr ⟨has, rfl⟩, ?_⟩
    rintro before' (made' | ⟨-, same⟩)
    · exact absurd made'.hasLogger has
    · exact same

end History

/-! ## What an operation does to a router -/

namespace Router

@[simp] theorem running_meet (r : Router) (tag : String) : (r.meet tag).running = r.running := by
  unfold meet
  split <;> rfl

@[simp] theorem disabled_meet (r : Router) (tag : String) :
    (r.meet tag).disabled = r.disabled := by
  unfold meet
  split <;> rfl

/-- The router that an operation leaves. -/
def heed (r : Router) : RouterRequest → Router
  | .new => {}
  | .start => r.start
  | .stop => r.stop
  | .flush => r
  | .register tag => if r.running = true then r.meet tag else r
  | .setThreshold tag s => (r.setThreshold tag s).2
  | .addSink tag sink obstacle? => if problem? obstacle? sink = none then r.add tag sink else r
  | .log tag _ _ => if r.running = true ∧ tag ∉ r.disabled then r.meet tag else r
  | .enable tag => r.enable tag
  | .disable tag => r.disable tag

theorem state_serve (r : Router) (op : RouterRequest) : (r.serve op).state = r.heed op := by
  cases op with
  | register tag =>
    show (r.register tag).2 = _
    rw [register, heed, meet]
    cases r.running with
    | false => rfl
    | true =>
      simp only [Bool.not_true, Bool.false_eq_true, if_false, if_true]
      split <;> rfl
  | addSink tag sink obstacle? =>
    show (r.addSink tag sink obstacle?).2 = _
    rw [addSink, heed]
    cases problem? obstacle? sink with
    | none => rfl
    | some p => rfl
  | log tag severity text =>
    show (r.log tag severity text).2 = _
    rw [heed]
    split
    · rw [log_of_hears ‹_›]
    · rw [log_of_not_hears ‹_›]
  | _ => rfl

theorem running_heed (r : Router) (op : RouterRequest) :
    (r.heed op).running = true ↔
      op = .start ∨ (r.running = true ∧ ¬ (op = .stop ∨ op = .new)) := by
  cases op with
  | register tag =>
    rw [heed]
    split <;> simp [*]
  | addSink tag sink obstacle? =>
    rw [heed]
    split <;> simp
  | log tag severity text =>
    rw [heed]
    split <;> simp
  | _ => simp [heed, start, stop, enable, disable]

@[simp] theorem disabled_setThreshold (r : Router) (tag : String) (s : Severity) :
    (r.setThreshold tag s).2.disabled = r.disabled := by
  unfold setThreshold
  split
  · rfl
  · split <;> rfl

@[simp] theorem sinks_setThreshold (r : Router) (tag : String) (s : Severity) :
    (r.setThreshold tag s).2.sinks = r.sinks := by
  unfold setThreshold
  split
  · rfl
  · split <;> rfl

theorem mem_disabled_heed (r : Router) (op : RouterRequest) (tag : String) :
    tag ∈ (r.heed op).disabled ↔
      op = .disable tag ∨ (tag ∈ r.disabled ∧ ¬ (op = .enable tag ∨ op = .new)) := by
  cases op with
  | register t =>
    rw [heed]
    split <;> simp
  | addSink t sink obstacle? =>
    rw [heed]
    split <;> simp [add]
  | log t severity text =>
    rw [heed]
    split <;> simp
  | enable t =>
    simp only [heed, enable, Std.ExtTreeSet.mem_erase, ne_eq, Std.compare_eq_iff_eq,
      RouterRequest.enable.injEq, reduceCtorEq, or_false, false_or]
    exact and_comm
  | disable t =>
    simp only [heed, disable, NameSet.mem_insert, RouterRequest.disable.injEq, reduceCtorEq,
      or_false, not_false_eq_true, and_true, @eq_comm _ t]
  | _ => simp [heed, start, stop]

theorem mem_loggers_meet (r : Router) (tag t : String) :
    t ∈ (r.meet tag).loggers ↔ tag = t ∨ t ∈ r.loggers := by
  rw [Std.ExtTreeMap.mem_iff_isSome_getElem?, Std.ExtTreeMap.mem_iff_isSome_getElem?, loggers_meet]
  split
  · simp [*]
  · simp [*]

/-- Setting a threshold neither makes nor drops a logger. -/
theorem mem_loggers_setThreshold (r : Router) (tag t : String) (s : Severity) :
    t ∈ (r.setThreshold tag s).2.loggers ↔ t ∈ r.loggers := by
  unfold setThreshold
  split
  · simp
  · split
    · rename_i found
      have known : tag ∈ r.loggers := by
        rw [Std.ExtTreeMap.mem_iff_isSome_getElem?, found]
        rfl
      rw [Std.ExtTreeMap.mem_insert, Std.compare_eq_iff_eq]
      exact or_iff_right_of_imp fun same => same ▸ known
    · rfl

theorem mem_loggers_heed (r : Router) (op : RouterRequest) (tag : String) :
    tag ∈ (r.heed op).loggers ↔
      (r.running = true ∧ (op = .register tag ∨
        tag ∉ r.disabled ∧ ∃ severity text, op = .log tag severity text)) ∨
      (tag ∈ r.loggers ∧ ¬ op.clears = true) := by
  unfold RouterRequest.clears
  cases op with
  | register t =>
    rw [heed]
    split
    · simp [mem_loggers_meet, *]
    · simp [*]
  | setThreshold t s =>
    simp [heed, mem_loggers_setThreshold]
  | addSink t sink obstacle? =>
    rw [heed]
    split <;> simp [add]
  | log t severity text =>
    have own : (∃ s x, RouterRequest.log t severity text = .log tag s x) ↔ t = tag := by simp
    rw [heed, own]
    split
    · rw [mem_loggers_meet]
      grind
    · grind
  | _ => simp [heed, start, stop, enable, disable]

theorem sinks_heed (r : Router) (op : RouterRequest) (tag : String) :
    (r.heed op).sinks.getD tag [] =
      if op.clears then [] else r.sinks.getD tag [] ++ (op.added? tag).toList := by
  cases op with
  | register t =>
    rw [heed]
    split <;> simp [RouterRequest.clears, RouterRequest.added?]
  | setThreshold t s =>
    rw [heed, sinks_setThreshold]
    simp [RouterRequest.clears, RouterRequest.added?]
  | addSink t sink obstacle? =>
    rw [heed, show (RouterRequest.addSink t sink obstacle?).clears = false from rfl,
      if_neg Bool.false_ne_true, RouterRequest.added?]
    by_cases sound : problem? obstacle? sink = none
    · rw [if_pos sound, add, NameMap.getD_insert]
      by_cases same : t = tag
      · simp [same, sound]
      · simp [same]
    · simp [sound]
  | log t severity text =>
    rw [heed]
    split <;> simp [RouterRequest.clears, RouterRequest.added?]
  | _ => simp [heed, start, stop, enable, disable, RouterRequest.clears, RouterRequest.added?]

/-- A logger keeps its sinks as long as it is there. -/
theorem map_sinks_heed {r : Router} {op : RouterRequest} {tag : String} {sinks : List Sink}
    (kept : ¬ op.clears) (known : r.loggers[tag]?.map (·.sinks) = some sinks) :
    (r.heed op).loggers[tag]?.map (·.sinks) = some sinks := by
  have met (t : String) : (r.meet t).loggers[tag]?.map (·.sinks) = some sinks := by
    rw [loggers_meet]
    split
    · rename_i same
      obtain ⟨logger, found, rfl⟩ := Option.map_eq_some_iff.mp known
      rw [same, loggerFor, found]
      rfl
    · exact known
  cases op with
  | register t =>
    rw [heed]
    split
    · exact met t
    · exact known
  | setThreshold t s =>
    rw [heed, setThreshold]
    split
    · simpa [Function.comp_def] using known
    · split
      · rename_i found
        rw [NameMap.getElem?_insert]
        split
        · rename_i same
          rw [← same, found] at known
          exact known
        · exact known
      · exact known
  | addSink t sink obstacle? =>
    rw [heed]
    split
    · exact known
    · exact known
  | log t severity text =>
    rw [heed]
    split
    · exact met t
    · exact known
  | new => exact absurd rfl kept
  | stop => exact absurd rfl kept
  | _ => exact known

end Router

namespace History

/-- The sinks of a logger that is made after these operations: those added for its tag, then the
global ones, and the console if there is none. -/
def sinksFor (before : History) (tag : String) : List Sink :=
  let sinks := before.added tag ++ before.added globalTag
  if sinks.isEmpty then [.console] else sinks

theorem router_concat (ops : History) (op : RouterRequest) :
    router (ops ++ [op]) = ops.router.heed op := by
  simp [router, Router.state_serve]

theorem running_router (ops : History) : ops.router.running = true ↔ ops.Runs := by
  induction ops using List.reverseRecOn with
  | nil => exact iff_of_false nofun not_lasts_nil
  | append_singleton ops op ih =>
    rw [router_concat, Router.running_heed, ih, Runs, lasts_concat]

theorem mem_disabled_router (ops : History) (tag : String) :
    tag ∈ ops.router.disabled ↔ ops.Silences tag := by
  induction ops using List.reverseRecOn with
  | nil => exact iff_of_false Std.ExtTreeSet.not_mem_empty not_lasts_nil
  | append_singleton ops op ih =>
    rw [router_concat, Router.mem_disabled_heed, ih, Silences, Silences, lasts_concat]

theorem mem_loggers_router (ops : History) (tag : String) :
    tag ∈ ops.router.loggers ↔ ops.HasLogger tag := by
  induction ops using List.reverseRecOn with
  | nil => exact iff_of_false Std.ExtTreeMap.not_mem_empty not_lasts_nil
  | append_singleton ops op ih =>
    rw [router_concat, Router.mem_loggers_heed, ih, running_router, mem_disabled_router, HasLogger,
      HasLogger, lasts_concat]
    rfl

theorem sinks_router (ops : History) (tag : String) :
    ops.router.sinks.getD tag [] = ops.added tag := by
  induction ops using List.reverseRecOn with
  | nil => exact Std.ExtTreeMap.getD_empty
  | append_singleton ops op ih => rw [router_concat, Router.sinks_heed, ih, added_concat]

theorem sinksFor_router (before : History) (tag : String) :
    before.router.sinksFor tag = before.sinksFor tag := by
  rw [Router.sinksFor, sinks_router, sinks_router, sinksFor]

theorem hears_router (ops : History) (tag : String) :
    ops.router.Hears tag ↔ ops.Runs ∧ ¬ ops.Silences tag := by
  rw [Router.Hears, running_router, mem_disabled_router]

theorem Needs.heed {before : History} {op : RouterRequest} {tag : String}
    (needs : before.Needs op tag) : before.router.heed op = before.router.meet tag := by
  obtain ⟨runs, rfl | ⟨heard, severity, text, rfl⟩⟩ := needs
  · exact if_pos ((running_router before).mpr runs)
  · exact if_pos ((hears_router before tag).mpr ⟨runs, heard⟩)

/-- While a tag has no logger, a message would meet one that has the sinks and the threshold of
this moment. -/
theorem loggerFor_router {ops : History} {tag : String} (none : ¬ ops.HasLogger tag) :
    ops.router.loggerFor tag = ⟨ops.sinksFor tag, ops.router.threshold⟩ := by
  have missing := mt (mem_loggers_router ops tag).mp none
  rw [Router.loggerFor, Std.ExtTreeMap.getElem?_eq_none missing, Option.getD_none, sinksFor_router]

theorem Made.map_sinks {ops before : History} {tag : String} (made : ops.Made tag before) :
    ops.router.loggers[tag]?.map (·.sinks) = some (before.sinksFor tag) := by
  induction ops using List.reverseRecOn with
  | nil => exact absurd made.hasLogger not_lasts_nil
  | append_singleton ops op ih =>
    rw [router_concat]
    rcases made_concat.mp made with ⟨rfl, needs, new⟩ | ⟨made, kept⟩
    · rw [needs.heed, Router.loggers_meet, if_pos rfl, loggerFor_router new]
      rfl
    · exact Router.map_sinks_heed kept (ih made)

/-- The sinks that a message meets are those that there were when the logger was made. -/
theorem Met.sinks {ops before : History} {tag : String} (met : ops.Met tag before) :
    (ops.router.loggerFor tag).sinks = before.sinksFor tag := by
  rcases met with made | ⟨none, rfl⟩
  · obtain ⟨logger, found, same⟩ := Option.map_eq_some_iff.mp made.map_sinks
    rw [Router.loggerFor, found, Option.getD_some, same]
  · rw [loggerFor_router none]

end History

end Singletons.Logging
