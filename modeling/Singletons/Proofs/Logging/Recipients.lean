import Singletons.Proofs.Logging.Levels
/-!
# Which sinks a message reaches

A message goes to the sinks that its logger was made with. Those are the sinks added for its tag
and the global ones, except that under the global tag itself the two lists are the same one, and
every sink of it gets the message twice.
-/

namespace Singletons.Logging

namespace History

/-- The sinks that a logger made now is for, each one once: those of its tag, then the global
ones, and the console if there is none. -/
def recipients (before : History) (tag : String) : List Sink :=
  let sinks := before.added tag ++ if tag = globalTag then [] else before.added globalTag
  if sinks.isEmpty then [.console] else sinks

theorem recipients_globalTag {before : History} (some : before.added globalTag ≠ []) :
    before.recipients globalTag = before.added globalTag := by
  rw [recipients, if_pos rfl, List.append_nil]
  exact if_neg (mt List.isEmpty_iff.mp some)

/-- The global logger has every global sink twice. -/
theorem sinksFor_globalTag {before : History} (some : before.added globalTag ≠ []) :
    before.sinksFor globalTag = before.added globalTag ++ before.added globalTag := by
  rw [sinksFor, if_neg]
  exact fun none => some (List.append_eq_nil_iff.mp (List.isEmpty_iff.mp none)).1

/-- Every other logger, and a global one without global sinks, has the sinks that it is for. -/
theorem sinksFor_eq_recipients {before : History} {tag : String}
    (apart : ¬ (tag = globalTag ∧ before.added globalTag ≠ [])) :
    before.sinksFor tag = before.recipients tag := by
  by_cases all : tag = globalTag
  · have none : before.added globalTag = [] := by
      by_contra some
      exact apart ⟨all, some⟩
    rw [sinksFor, recipients, all, none]
    rfl
  · rw [sinksFor, recipients, if_neg all]

/-- A message that passes meets a logger made at one point of the history. It is written once to
each sink that this logger is for, and to no other, exactly if it is not one under the global tag
with global sinks to go to. Those get it twice. -/
theorem delivers_once_iff {ops : History} {tag : String} {severity : Severity}
    (passes : ops.Passes tag severity) (text : String) :
    ∃ before, (∀ b, ops.Met tag b ↔ b = before) ∧
      ((ops.router.serve (.log tag severity text)).deliveries =
          (before.recipients tag).map (Delivery.mk · tag severity text) ↔
        ¬ (tag = globalTag ∧ before.added globalTag ≠ [])) ∧
      (tag = globalTag → before.added globalTag ≠ [] →
        (ops.router.serve (.log tag severity text)).deliveries =
          (before.added globalTag ++ before.added globalTag).map
            (Delivery.mk · tag severity text)) := by
  obtain ⟨before, met, unique⟩ := ops.existsUnique_met tag
  rw [deliveries_log_of_passes passes met]
  refine ⟨before, fun b => ⟨unique b, fun same => same ▸ met⟩, ⟨?_, fun apart => ?_⟩, ?_⟩
  · rintro once ⟨rfl, some⟩
    rw [sinksFor_globalTag some, recipients_globalTag some] at once
    -- what is written twice is longer than what is written once
    have long := congrArg List.length once
    rw [List.length_map, List.length_map, List.length_append] at long
    exact some (List.length_eq_zero_iff.mp (by omega))
  · rw [sinksFor_eq_recipients apart]
  · rintro rfl some
    rw [sinksFor_globalTag some]

/-- With the console as the one global sink, a message under the global tag is on it twice. -/
theorem delivers_twice_globalTag :
    Passes [.start, .addSink globalTag .console none] globalTag .info ∧
      (Router.serve (router [.start, .addSink globalTag .console none])
        (.log globalTag .info "m")).deliveries =
          [.console, .console].map (Delivery.mk · globalTag .info "m") ∧
      recipients [.start, .addSink globalTag .console none] globalTag = [.console] := by
  let ops : History := [.start, .addSink globalTag .console none]
  have runs : ops.Runs := (running_router ops).mp rfl
  have heard : ¬ ops.Silences globalTag := by
    rw [← mem_disabled_router]
    exact Std.ExtTreeSet.not_mem_empty
  have none : ¬ ops.HasLogger globalTag := by
    rw [← mem_loggers_router]
    exact Std.ExtTreeMap.not_mem_empty
  have reaches : (ops.router.loggerFor globalTag).threshold.rank ≤ Severity.info.rank := by
    rw [loggerFor_router none]
    exact le_rfl
  have passes : ops.Passes globalTag .info :=
    ⟨runs, heard, _, (hasThreshold_router ops).2 globalTag, reaches⟩
  obtain ⟨before, met, -, twice⟩ := delivers_once_iff passes "m"
  obtain rfl : ops = before := (met ops).mp (.inr ⟨none, rfl⟩)
  have added : ops.added globalTag = [.console] := by decide
  have some : ops.added globalTag ≠ [] := added ▸ List.cons_ne_nil _ _
  refine ⟨passes, (twice rfl some).trans ?_, (recipients_globalTag some).trans added⟩
  rw [added]
  rfl

end History

end Singletons.Logging
