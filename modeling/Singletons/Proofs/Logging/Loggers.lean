import Singletons.Logging.Router
/-!
# The logger that a message meets

A message goes to the logger of its tag, and the first one may have to have it made. What a logger
is made of does not change with messages, so every message meets the logger that the first one
would have met.
-/

namespace Singletons.Logging

/-- What comes of a message that meets a logger. -/
def Logger.write (l : Logger) (tag : String) (severity : Severity) (text : String) :
    List Delivery :=
  if severity.reaches l.threshold then l.sinks.map (⟨·, tag, severity, text⟩) else []

structure Message where
  tag : String
  severity : Severity
  text : String

namespace Router

/-- The logger there is for a tag, or else the one that is made when it is needed. -/
def loggerFor (r : Router) (tag : String) : Logger :=
  r.loggers[tag]?.getD ⟨r.sinksFor tag, r.threshold⟩

/-- Messages under a tag are neither lost nor silenced. -/
def Hears (r : Router) (tag : String) : Prop := r.running = true ∧ tag ∉ r.disabled

/-- A tag gets its logger, unless it has one. -/
def meet (r : Router) (tag : String) : Router :=
  if r.loggers.contains tag then r else r.create tag

def logAll (r : Router) (messages : List Message) : Router :=
  messages.foldl (fun r m => (r.log m.tag m.severity m.text).2) r

variable {r : Router} {tag : String}

theorem loggers_meet (r : Router) (tag t : String) :
    (r.meet tag).loggers[t]? = if tag = t then some (r.loggerFor tag) else r.loggers[t]? := by
  rw [meet, loggerFor, Std.ExtTreeMap.contains_eq_isSome_getElem?]
  cases made : r.loggers[tag]? with
  | none =>
    rw [Option.isSome_none, if_neg Bool.false_ne_true, create, NameMap.getElem?_insert,
      Option.getD_none]
  | some logger =>
    rw [Option.isSome_some, if_pos rfl, Option.getD_some]
    split
    · rename_i same
      rw [← same, made]
    · rfl

@[simp] theorem sinks_meet (r : Router) (tag : String) : (r.meet tag).sinks = r.sinks := by
  unfold meet
  split <;> rfl

@[simp] theorem threshold_meet (r : Router) (tag : String) :
    (r.meet tag).threshold = r.threshold := by
  unfold meet
  split <;> rfl

theorem hears_meet (r : Router) (tag t : String) : (r.meet tag).Hears t ↔ r.Hears t := by
  unfold meet
  split <;> rfl

theorem log_of_not_hears (deaf : ¬ r.Hears tag) (severity : Severity) (text : String) :
    r.log tag severity text = ([], r) := by
  rw [log, if_pos]
  rw [Hears, Std.ExtTreeSet.mem_iff_contains] at deaf
  cases running : r.running with
  | false => rfl
  | true => simpa [running] using deaf

theorem log_of_hears (hears : r.Hears tag) (severity : Severity) (text : String) :
    r.log tag severity text = ((r.loggerFor tag).write tag severity text, r.meet tag) := by
  obtain ⟨running, enabled⟩ := hears
  rw [Std.ExtTreeSet.mem_iff_contains] at enabled
  have met : (r.meet tag).loggers[tag]? = some (r.loggerFor tag) := by
    rw [loggers_meet, if_pos rfl]
  rw [log, if_neg (by simp [running, enabled])]
  rw [meet] at met ⊢
  simp only [met]
  rfl

/-- Messages leave the logger of every tag what it is, made or not. -/
theorem loggerFor_meet (r : Router) (tag t : String) :
    (r.meet tag).loggerFor t = r.loggerFor t := by
  rw [loggerFor, loggers_meet, sinksFor, sinks_meet, threshold_meet]
  split
  · rename_i same
    rw [same, Option.getD_some]
  · rfl

theorem loggerFor_log (r : Router) (m : Message) (t : String) :
    (r.log m.tag m.severity m.text).2.loggerFor t = r.loggerFor t := by
  by_cases hears : r.Hears m.tag
  · rw [log_of_hears hears, loggerFor_meet]
  · rw [log_of_not_hears hears]

theorem hears_log (r : Router) (m : Message) (t : String) :
    (r.log m.tag m.severity m.text).2.Hears t ↔ r.Hears t := by
  by_cases hears : r.Hears m.tag
  · rw [log_of_hears hears, hears_meet]
  · rw [log_of_not_hears hears]

theorem loggerFor_logAll (r : Router) (messages : List Message) (t : String) :
    (r.logAll messages).loggerFor t = r.loggerFor t := by
  induction messages generalizing r with
  | nil => rfl
  | cons m messages ih => exact (ih _).trans (r.loggerFor_log m t)

theorem hears_logAll (r : Router) (messages : List Message) (t : String) :
    (r.logAll messages).Hears t ↔ r.Hears t := by
  induction messages generalizing r with
  | nil => rfl
  | cons m messages ih => exact (ih _).trans (r.hears_log m t)

/-- However many messages came before, one that is heard is written by the logger that its tag had
or was to have at the beginning, and the tag has that logger then. -/
theorem log_logAll (hears : r.Hears tag) (earlier : List Message) (severity : Severity)
    (text : String) :
    ((r.logAll earlier).log tag severity text).1 = (r.loggerFor tag).write tag severity text ∧
      ((r.logAll earlier).log tag severity text).2.loggers[tag]? = some (r.loggerFor tag) := by
  rw [log_of_hears ((r.hears_logAll earlier tag).mpr hears), loggers_meet, if_pos rfl,
    loggerFor_logAll]
  exact ⟨rfl, rfl⟩

end Router

end Singletons.Logging
