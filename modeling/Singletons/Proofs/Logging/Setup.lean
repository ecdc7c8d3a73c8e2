import Singletons.Proofs.Logging.Settings
/-!
# Applying settings step by step

Each step of a setup either ends with a changed router, or is refused with one of the two codes for
bad settings. It ends exactly if the settings that it reads are sensible, and the router that it
leaves then is the one before with what the settings say.
-/

namespace Singletons.Logging

open Document

namespace Router

/-- Lists a sink under a tag, for loggers to come. -/
def add (r : Router) (tag : String) (sink : Sink) : Router :=
  { r with sinks := r.sinks.insert tag (r.sinks.getD tag [] ++ [sink]) }

/-- Sets a threshold if one is given. -/
def limit (r : Router) (tag : String) (threshold? : Option Severity) : Router :=
  threshold?.elim r fun s => (r.setThreshold tag s).2

/-- Follows what is said about all tags. -/
def prepare (r : Router) (d : Directive) : Router :=
  d.sinks.foldl (·.add globalTag ·) (r.limit globalTag d.threshold?)

/-- Follows what is said about one tag. -/
def configure (r : Router) (tag : String) (d : Directive) : Router :=
  ((d.sinks.foldl (·.add tag ·) r).register tag).2.limit tag d.threshold?

/-- Follows what an entry says. -/
def obey (r : Router) (order : String × Directive) : Router :=
  if order.1 = globalTag then r else r.configure order.1 order.2

/-- Follows a plan: first what it says about all tags, then one entry after another. -/
def carryOut (r : Router) (plan : Plan) : Router :=
  plan.orders.foldl obey (r.prepare plan.shared)

@[simp] theorem running_add (r : Router) (tag : String) (sink : Sink) :
    (r.add tag sink).running = r.running := rfl

@[simp] theorem running_register (r : Router) (tag : String) :
    (r.register tag).2.running = r.running := by
  unfold register
  split
  · rfl
  · split <;> rfl

@[simp] theorem running_setThreshold (r : Router) (tag : String) (s : Severity) :
    (r.setThreshold tag s).2.running = r.running := by
  unfold setThreshold
  split
  · rfl
  · split <;> rfl

@[simp] theorem running_limit (r : Router) (tag : String) (threshold? : Option Severity) :
    (r.limit tag threshold?).running = r.running := by
  cases threshold? with
  | none => rfl
  | some s => exact r.running_setThreshold tag s

theorem running_foldl {α : Type} {act : Router → α → Router}
    (keeps : ∀ r x, (act r x).running = r.running) (xs : List α) (r : Router) :
    (xs.foldl act r).running = r.running := by
  induction xs generalizing r with
  | nil => rfl
  | cons x xs ih => exact (ih (act r x)).trans (keeps r x)

@[simp] theorem running_foldl_add (r : Router) (tag : String) (sinks : List Sink) :
    (sinks.foldl (·.add tag ·) r).running = r.running :=
  running_foldl (running_add · tag) sinks r

@[simp] theorem running_prepare (r : Router) (d : Directive) :
    (r.prepare d).running = r.running := by
  simp [prepare]

@[simp] theorem running_configure (r : Router) (tag : String) (d : Directive) :
    (r.configure tag d).running = r.running := by
  simp [configure]

@[simp] theorem running_obey (r : Router) (order : String × Directive) :
    (r.obey order).running = r.running := by
  unfold obey
  split
  · rfl
  · exact r.running_configure order.1 order.2

/-- While a router runs, a registered tag has a logger, the one before or a new one. -/
theorem mem_loggers_register {r : Router} (running : r.running = true) (tag : String) :
    tag ∈ (r.register tag).2.loggers := by
  rw [register, running, Bool.not_true, if_neg Bool.false_ne_true]
  split
  · exact Std.ExtTreeMap.mem_iff_contains.mpr ‹_›
  · exact Std.ExtTreeMap.mem_insert_self

end Router

/-- The codes for settings that cannot be applied. -/
def Refusal.Reported (refusal : Refusal) : Prop :=
  refusal.result.code = .invalidArgument ∨ refusal.result.code = .notSupported

theorem Refusal.Reported.not_isOk {refusal : Refusal} (reported : refusal.Reported) :
    ¬ refusal.result.isOk = true := by
  rw [Result.isOk]
  rcases reported with same | same <;> rw [same] <;> decide

namespace Setup

variable {α β : Type}

/-- A setup ends with an answer and a changed router. -/
def Ends (m : Setup α) (r : Router) (a : α) (r' : Router) : Prop := m.run.run r = (.ok a, r')

/-- A setup is refused for bad settings. -/
def Fails (m : Setup α) (r : Router) : Prop :=
  ∃ refusal r', m.run.run r = (.error refusal, r') ∧ refusal.Reported

theorem run_bind (m : Setup α) (k : α → Setup β) (r : Router) :
    (m >>= k).run.run r =
      match m.run.run r with
      | (.ok a, r') => (k a).run.run r'
      | (.error refusal, r') => (.error refusal, r') := by
  simp only [ExceptT.run_bind, StateT.run_bind]
  rcases m.run.run r with ⟨_ | _, _⟩ <;> rfl

theorem Ends.pure (a : α) (r : Router) : Ends (pure a) r a r := rfl

theorem Ends.bind {m : Setup α} {k : α → Setup β} {r r₁ r₂ : Router} {a : α} {b : β}
    (first : Ends m r a r₁) (next : Ends (k a) r₁ b r₂) : Ends (m >>= k) r b r₂ := by
  rw [Ends, run_bind, first]
  exact next

theorem Fails.bind {m : Setup α} {r : Router} (h : Fails m r) (k : α → Setup β) :
    Fails (m >>= k) r := by
  obtain ⟨refusal, r', run, reported⟩ := h
  refine ⟨refusal, r', ?_, reported⟩
  rw [run_bind, run]

theorem Ends.fails {m : Setup α} {k : α → Setup β} {r r₁ : Router} {a : α}
    (first : Ends m r a r₁) (next : Fails (k a) r₁) : Fails (m >>= k) r := by
  obtain ⟨refusal, r', run, reported⟩ := next
  refine ⟨refusal, r', ?_, reported⟩
  rw [run_bind, first]
  exact run

theorem fails_malformed (r : Router) : Fails (throw .malformed : Setup α) r :=
  ⟨.malformed, r, rfl, .inl rfl⟩

/-! ## Reading -/

/-- A reader delivers what it is meant to find and leaves the router alone, or is refused where
there is no such thing. -/
structure Reads (m : Setup α) (Finds : α → Prop) : Prop where
  ends {a : α} (r : Router) : Finds a → Ends m r a r
  fails (r : Router) : (¬ ∃ a, Finds a) → Fails m r

/-- What comes after a reader fails if it does so with all that the reader can find. -/
theorem Reads.fails_bind {m : Setup α} {Finds : α → Prop} {k : α → Setup β} {r : Router}
    (reads : Reads m Finds) (later : ∀ a, Finds a → Fails (k a) r) : Fails (m >>= k) r := by
  by_cases some : ∃ a, Finds a
  · obtain ⟨a, finds⟩ := some
    exact (reads.ends r finds).fails (later a finds)
  · exact (reads.fails r some).bind k

theorem reads_read (e : Except Malformed α) : Reads (read e) (e = .ok ·) where
  ends r same := by
    rw [same]
    exact Ends.pure _ r
  fails r missing := by
    cases e with
    | ok a => exact absurd ⟨a, rfl⟩ missing
    | error => exact fails_malformed r

theorem reads_read? (e : Except Malformed (Option α)) :
    Reads (read? e) (fun a => e = .ok (some a)) where
  ends r same := by
    rw [same]
    exact Ends.pure _ r
  fails r missing := by
    rcases e with _ | _ | a
    · exact fails_malformed r
    · exact fails_malformed r
    · exact absurd ⟨a, rfl⟩ missing

theorem reads_textOf (node : Document) (key : String) :
    Reads (textOf node key) (node.Gives key ·) where
  ends {text} r given :=
    ((reads_read? _).ends r given).bind ((reads_read (scalar text).text).ends r rfl)
  fails r missing := by
    refine (reads_read? _).fails_bind fun value found => (reads_read _).fails r ?_
    rintro ⟨text, same⟩
    obtain rfl := text_eq_ok_iff.mp same
    exact missing ⟨text, found⟩

theorem reads_sizeOf (host : Host) (node : Document) (key : String) :
    Reads (sizeOf host node key) (node.Counts host.number? key ·) where
  ends r := by
    rintro ⟨value, found, size⟩
    exact ((reads_read? _).ends r found).bind ((reads_read _).ends r (size_eq_ok_iff.mpr size))
  fails r missing := by
    refine (reads_read? _).fails_bind fun value found => (reads_read _).fails r ?_
    rintro ⟨n, same⟩
    exact missing ⟨n, value, found, size_eq_ok_iff.mp same⟩

theorem reads_textOr (node : Document) (key default : String) :
    Reads (textOr node key default) (node.GivesOr key default ·) where
  ends {text} r given := by
    obtain given | ⟨missing, rfl⟩ := given
    · exact ((reads_read _).ends r given).bind ((reads_read (scalar text).text).ends r rfl)
    · exact ((reads_read _).ends r missing).bind (Ends.pure _ r)
  fails r nothing := by
    refine (reads_read _).fails_bind fun value? found => ?_
    cases value? with
    | none => exact absurd ⟨default, .inr ⟨found, rfl⟩⟩ nothing
    | some value =>
      refine (reads_read _).fails r ?_
      rintro ⟨text, same⟩
      obtain rfl := text_eq_ok_iff.mp same
      exact nothing ⟨text, .inl found⟩

/-! ## Sinks -/

theorem run_change (f : Router → Plain × Router) (r : Router) :
    (change f).run.run r =
      (if (f r).1.isOk then .ok () else .error (.rejected (f r).1), (f r).2) := by
  show (if (f r).1.isOk then pure () else throw _ : Setup Unit).run.run (f r).2 = _
  split <;> rfl

theorem change_ends {f : Router → Plain × Router} {r : Router} (ok : (f r).1.isOk = true) :
    Ends (change f) r () (f r).2 := by
  rw [Ends, run_change, if_pos ok]

theorem change_fails {f : Router → Plain × Router} {r : Router} {p : Problem}
    (h : (f r).1 = p.report) (refuses : p.code = .invalidArgument ∨ p.code = .notSupported) :
    Fails (change f) r := by
  have reported : (Refusal.rejected p.report).Reported := refuses
  have failed : ¬ (p.report : Plain).isOk = true := reported.not_isOk
  refine ⟨.rejected p.report, (f r).2, ?_, reported⟩
  rw [run_change, h, if_neg failed]

theorem add_ends {host : Host} {sink : Sink}
    (opens : Router.problem? (host.obstacle? sink) sink = none) (tag : String) (r : Router) :
    Ends (add host tag sink) r () (r.add tag sink) := by
  have added : r.addSink tag sink (host.obstacle? sink) = (.done (), r.add tag sink) := by
    rw [Router.addSink, opens, Router.add]
  have ends : Ends (add host tag sink) r () (r.addSink tag sink (host.obstacle? sink)).2 :=
    change_ends (by rw [added]; rfl)
  rwa [added] at ends

theorem add_fails {host : Host} {sink : Sink} {p : Problem}
    (closed : Router.problem? (host.obstacle? sink) sink = some p) (tag : String) (r : Router) :
    Fails (add host tag sink) r := by
  refine change_fails (p := p) (by rw [Router.addSink, closed]) (.inl ?_)
  cases sink with
  | file path =>
    obtain ⟨reason, -, rfl⟩ := Option.map_eq_some_iff.mp closed
    rfl
  | rotating path size count =>
    obtain ⟨reason, -, rfl⟩ := Option.map_eq_some_iff.mp closed
    rfl
  | _ => cases closed

theorem sink_ends {host : Host} {tag : String} {node : Document} {sink : Sink}
    (describes : Describes host tag node sink) (r : Router) :
    Ends (Setup.sink host tag (some node)) r () (r.add tag sink) := by
  have text {key text : String} (given : node.Gives key text) :=
    (reads_textOf node key).ends r given
  have size {key : String} {n : Nat} (counts : node.Counts host.number? key n) :=
    (reads_sizeOf host node key).ends r counts
  have textOr {key default text : String} (given : node.GivesOr key default text) :=
    (reads_textOr node key default).ends r given
  cases describes with
  | console kind =>
    refine (text kind).bind ?_
    rw [if_pos rfl]
    exact add_ends rfl tag r
  | file kind named opens =>
    refine (text kind).bind ?_
    rw [if_neg (by decide), if_pos rfl]
    refine (text named).bind (add_ends ?_ tag r)
    rw [Router.problem?, opens, Option.map_none]
  | rotating kind named sized counted opens =>
    refine (text kind).bind ?_
    rw [if_neg (by decide), if_neg (by decide), if_pos rfl]
    refine (text named).bind ((size sized).bind ((size counted).bind (add_ends ?_ tag r)))
    rw [Router.problem?, opens, Option.map_none]
  | syslog kind named =>
    refine (text kind).bind ?_
    rw [if_neg (by decide), if_neg (by decide), if_neg (by decide), if_pos rfl]
    exact (textOr named).bind (add_ends rfl tag r)
  | loki kind located named =>
    refine (text kind).bind ?_
    rw [if_neg (by decide), if_neg (by decide), if_neg (by decide), if_neg (by decide), if_pos rfl]
    exact (text located).bind ((textOr named).bind (add_ends rfl tag r))

/-- Where a node describes no sink, one of the things that its kind needs is not there. -/
theorem sink_fails {host : Host} {tag : String} {element : Option Document}
    (nothing : ¬ ∃ sink, Stands host tag element sink) (r : Router) :
    Fails (Setup.sink host tag element) r := by
  cases element with
  | none => exact fails_malformed r
  | some node =>
    have missed {sink : Sink} : ¬ Describes host tag node sink :=
      fun described => nothing ⟨sink, node, rfl, described⟩
    refine (reads_textOf node "type").fails_bind fun kind given => ?_
    by_cases console : kind = "console"
    · exact absurd (.console (console ▸ given)) missed
    rw [if_neg console]
    by_cases file : kind = "file"
    · rw [if_pos file]
      refine (reads_textOf node "filename").fails_bind fun path named => ?_
      cases opens : host.obstacle? (.file path) with
      | some reason =>
        exact add_fails (p := .file path reason)
          (by rw [Router.problem?, opens, Option.map_some]) tag r
      | none => exact absurd (.file (file ▸ given) named opens) missed
    rw [if_neg file]
    by_cases rotating : kind = "rotating_file"
    · rw [if_pos rotating]
      refine (reads_textOf node "filename").fails_bind fun path named => ?_
      refine (reads_sizeOf host node "max_size").fails_bind fun size sized => ?_
      refine (reads_sizeOf host node "max_files").fails_bind fun count counted => ?_
      cases opens : host.obstacle? (.rotating path size count) with
      | some reason =>
        exact add_fails (p := .rotatingFile path reason)
          (by rw [Router.problem?, opens, Option.map_some]) tag r
      | none => exact absurd (.rotating (rotating ▸ given) named sized counted opens) missed
    rw [if_neg rotating]
    by_cases syslog : kind = "syslog"
    · rw [if_pos syslog]
      refine (reads_textOr node "ident" tag).fails_bind fun ident named => ?_
      exact absurd (.syslog (syslog ▸ given) named) missed
    rw [if_neg syslog]
    by_cases loki : kind = "loki"
    · rw [if_pos loki]
      refine (reads_textOf node "url").fails_bind fun url located => ?_
      refine (reads_textOr node "job" "singleton_registry").fails_bind fun job named => ?_
      exact absurd (.loki (loki ▸ given) located named) missed
    rw [if_neg loki]
    exact ⟨_, r, rfl, .inr rfl⟩

/-! ## Following what can be read -/

/-- A step reads a meaning from its input, if it has one, and then changes the router by it. An
input without a meaning is refused. -/
structure Follows (step : α → Setup Unit) (Means : α → β → Prop) (act : Router → β → Router) :
    Prop where
  ends {x : α} {y : β} {r : Router} :
    Means x y → r.running = true → Ends (step x) r () (act r y)
  fails {x : α} {r : Router} :
    (¬ ∃ y, Means x y) → r.running = true → Fails (step x) r
  running (r : Router) (y : β) : (act r y).running = r.running

/-- What comes after a step fails if it does so whatever the step followed. -/
theorem Follows.fails_bind {step : α → Setup Unit} {Means : α → β → Prop}
    {act : Router → β → Router} (follows : Follows step Means act) {x : α} {k : Unit → Setup Unit}
    {r : Router} (running : r.running = true)
    (later : ∀ y, Means x y → (act r y).running = true → Fails (k ()) (act r y)) :
    Fails (step x >>= k) r := by
  by_cases some : ∃ y, Means x y
  · obtain ⟨y, means⟩ := some
    exact (follows.ends means running).fails
      (later y means ((follows.running r y).trans running))
  · exact (follows.fails some running).bind k

/-- A walk over a list follows its items one after another, up to one that has no meaning. -/
theorem Follows.forM {step : α → Setup Unit} {Means : α → β → Prop} {act : Router → β → Router}
    (follows : Follows step Means act) :
    Follows (List.forM · step) (List.Forall₂ Means) (fun r ys => ys.foldl act r) where
  ends {xs ys r} meaning running := by
    induction meaning generalizing r with
    | nil => exact Ends.pure () r
    | cons first _ ih =>
      exact (follows.ends first running).bind (ih ((follows.running r _).trans running))
  fails {xs r} nothing running := by
    induction xs generalizing r with
    | nil => exact absurd ⟨[], .nil⟩ nothing
    | cons x xs ih =>
      refine follows.fails_bind running fun y first running => ih ?_ running
      rintro ⟨ys, rest⟩
      exact nothing ⟨y :: ys, .cons first rest⟩
  running r ys := Router.running_foldl follows.running ys r

theorem follows_sink (host : Host) (tag : String) :
    Follows (Setup.sink host tag) (Stands host tag) (fun r sink => r.add tag sink) where
  ends := by
    rintro x sink r ⟨node, rfl, describes⟩ -
    exact sink_ends describes r
  fails nothing _ := sink_fails nothing _
  running r sink := r.running_add tag sink

/-- The sinks of a list are added in its order. -/
theorem follows_sinks (host : Host) (tag : String) :
    Follows (Setup.sinks host tag) (ListsSinks host tag)
      (fun r listed => listed.foldl (·.add tag ·) r) where
  ends {settings listed r} lists running := by
    rw [ListsSinks] at lists
    rw [Setup.sinks]
    cases found : child? "sinks" settings with
    | some node =>
      rw [found] at lists
      exact (follows_sink host tag).forM.ends lists running
    | none =>
      rw [found] at lists
      rw [lists]
      exact Ends.pure () r
  fails {settings r} nothing running := by
    rw [Setup.sinks]
    cases found : child? "sinks" settings with
    | some node =>
      refine (follows_sink host tag).forM.fails ?_ running
      rintro ⟨listed, stand⟩
      exact nothing ⟨listed, by rwa [ListsSinks, found]⟩
    | none => exact absurd ⟨[], by rw [ListsSinks, found]⟩ nothing
  running r listed := r.running_foldl_add tag listed

/-! ## Thresholds -/

/-- A threshold can be set for all tags, and for one that has a logger. -/
theorem threshold_ends {tag : String} {settings : Entries} {threshold? : Option Severity}
    (sets : SetsThreshold settings threshold?) {r : Router}
    (present : tag = globalTag ∨ tag ∈ r.loggers) :
    Ends (Setup.threshold tag settings) r () (r.limit tag threshold?) := by
  rw [SetsThreshold] at sets
  rw [Setup.threshold]
  cases found : child? "level" settings with
  | some word =>
    rw [found] at sets
    obtain ⟨text, rfl, rfl⟩ := sets
    refine (Ends.pure text r).bind (change_ends ?_)
    rw [Router.setThreshold]
    rcases present with every | one
    · rw [if_pos every]
      rfl
    · split
      · rfl
      · rw [Std.ExtTreeMap.getElem?_eq_some_getElem one]
        rfl
  | none =>
    rw [found] at sets
    rw [sets]
    exact Ends.pure () r

theorem threshold_fails {tag : String} {settings : Entries}
    (nothing : ¬ ∃ threshold?, SetsThreshold settings threshold?) (r : Router) :
    Fails (Setup.threshold tag settings) r := by
  rw [Setup.threshold]
  cases found : child? "level" settings with
  | none => exact absurd ⟨none, by rw [SetsThreshold, found]⟩ nothing
  | some word =>
    refine (reads_read _).fails_bind fun text same => ?_
    refine absurd ⟨some (.ofWord text), ?_⟩ nothing
    rw [SetsThreshold, found]
    exact ⟨text, text_eq_ok_iff.mp same, rfl⟩

/-! ## Sections -/

theorem follows_everywhere (host : Host) :
    Follows (everywhere host) (Assigns host · globalTag) Router.prepare where
  ends {log d r} assigns running := by
    rw [Assigns] at assigns
    rw [everywhere]
    cases found : child? globalTag log with
    | some node =>
      rw [found] at assigns
      obtain ⟨settings, shape, lists, sets⟩ := assigns
      refine ((reads_read _).ends r shape).bind ((threshold_ends sets (.inl rfl)).bind ?_)
      exact (follows_sinks host globalTag).ends lists (by simpa using running)
    | none =>
      rw [found] at assigns
      rw [assigns]
      exact Ends.pure () r
  fails {log r} nothing running := by
    rw [everywhere]
    cases found : child? globalTag log with
    | none => exact absurd ⟨{}, by rw [Assigns, found]⟩ nothing
    | some node =>
      refine (reads_read node.entries).fails_bind fun settings shape => ?_
      by_cases sets : ∃ threshold?, SetsThreshold settings threshold?
      · obtain ⟨threshold?, sets⟩ := sets
        refine (threshold_ends sets (.inl rfl)).fails
          ((follows_sinks host globalTag).fails ?_ (by simpa using running))
        rintro ⟨listed, lists⟩
        refine nothing ⟨⟨listed, threshold?⟩, ?_⟩
        rw [Assigns, found]
        exact ⟨settings, shape, lists, sets⟩
      · exact (threshold_fails sets r).bind _
  running := Router.running_prepare

/-- Registering is never a refusal, not even of a tag that has a logger. -/
theorem register_ends {r : Router} (running : r.running = true) (tag : String) :
    Ends (change (·.register tag)) r () (r.register tag).2 := by
  refine change_ends ?_
  rw [Router.register, running, Bool.not_true, if_neg Bool.false_ne_true]
  split <;> rfl

theorem follows_tagged (host : Host) :
    Follows (tagged host) (Directs host) Router.obey where
  ends {entry order r} directs running := by
    obtain ⟨tag, d⟩ := order
    obtain ⟨named, spells⟩ := directs
    refine ((reads_read _).ends r (text_eq_ok_iff.mpr named)).bind ?_
    rw [Router.obey]
    by_cases every : tag = globalTag
    · rw [if_pos every, if_pos every]
      exact Ends.pure () r
    rw [if_neg every, if_neg every]
    obtain ⟨settings, shape, lists, sets⟩ := spells every
    refine ((reads_read _).ends r shape).bind ?_
    refine ((follows_sinks host tag).ends lists running).bind ?_
    have running : (d.sinks.foldl (·.add tag ·) r).running = true := by simpa using running
    exact (register_ends running tag).bind
      (threshold_ends sets (.inr (Router.mem_loggers_register running tag)))
  fails {entry r} nothing running := by
    refine (reads_read _).fails_bind fun tag named => ?_
    rw [text_eq_ok_iff] at named
    have other : tag ≠ globalTag := fun every => nothing ⟨(tag, {}), named, absurd every⟩
    rw [if_neg other]
    refine (reads_read _).fails_bind fun settings shape => ?_
    refine (follows_sinks host tag).fails_bind running fun listed lists running => ?_
    refine (register_ends running tag).fails (threshold_fails ?_ _)
    rintro ⟨threshold?, sets⟩
    exact nothing ⟨(tag, ⟨listed, threshold?⟩), named, fun _ => ⟨settings, shape, lists, sets⟩⟩
  running := Router.running_obey

/-- A section is carried out as planned, or refused if no plan can be read from it. -/
theorem follows_all (host : Host) :
    Follows (all host) (Plans host) Router.carryOut where
  ends {log plan r} plans running := by
    obtain ⟨entries, shape, assigns, direct⟩ := plans
    refine ((reads_read _).ends r shape).bind ?_
    refine ((follows_everywhere host).ends assigns running).bind ?_
    exact (follows_tagged host).forM.ends direct (by simpa using running)
  fails {log r} nothing running := by
    refine (reads_read _).fails_bind fun entries shape => ?_
    refine (follows_everywhere host).fails_bind running fun shared assigns running => ?_
    refine (follows_tagged host).forM.fails ?_ running
    rintro ⟨orders, direct⟩
    exact nothing ⟨⟨shared, orders⟩, entries, shape, assigns, direct⟩
  running r plan :=
    ((follows_tagged host).forM.running _ plan.orders).trans (r.running_prepare plan.shared)

end Setup

/-! ## The service -/

namespace Service

open Setup

variable {host : Host} {root log : Document} {entries : Entries}

/-- A fresh service carries out what is planned. -/
theorem apply_of_plans {plan : Plan} (shape : root.entries = .ok entries)
    (found : child? "log" entries = some log) (plans : Plans host log plan) (s : Service) :
    (s.init 0 root).2.apply host =
      (.ok (.done ()), ⟨root, some ((Router.start {}).carryOut plan)⟩) := by
  have ends : (Setup.all host log).run.run (Router.start {}) = _ :=
    (follows_all host).ends plans rfl
  rw [init, if_pos rfl, apply]
  simp only [shape, found, ends]

/-- A fresh service reports a section that cannot be read to the end. -/
theorem apply_of_no_plan (shape : root.entries = .ok entries)
    (found : child? "log" entries = some log) (nothing : ¬ ∃ plan, Plans host log plan)
    (s : Service) :
    ∃ refusal : Refusal, ∃ s', (s.init 0 root).2.apply host = (.ok refusal.result, s') ∧
      refusal.Reported := by
  obtain ⟨refusal, r, run, reported⟩ := (follows_all host).fails (r := Router.start {}) nothing rfl
  refine ⟨refusal, ⟨root, some r⟩, ?_, reported⟩
  rw [init, if_pos rfl, apply]
  simp only [shape, found, run]

end Service

end Singletons.Logging
