import Singletons.Logging.Host
import Singletons.Logging.Router
/-!
# The log service

One service serves everything in a process. It is given a document with settings when it starts,
and applies the section `log` of it on demand: thresholds and sinks by tag.
-/

namespace Singletons.Logging

structure Service where
  settings : Document := .null
  router : Option Router := none

/-- Why settings are not applied to the end. -/
inductive Refusal where
  | malformed
  | rejected (r : Plain)

def Refusal.result : Refusal → Plain
  | malformed => Problem.malformedSettings.report
  | rejected r => r

/-- Settings change the router one after another; what was changed before a refusal stays. -/
abbrev Setup := ExceptT Refusal (StateM Router)

namespace Setup

def read {α : Type} : Except Malformed α → Setup α
  | .ok a => pure a
  | .error _ => throw .malformed

def read? {α : Type} : Except Malformed (Option α) → Setup α
  | .ok (some a) => pure a
  | _ => throw .malformed

/-- Changes the router; a result that counts as a failure is a refusal. -/
def change (f : Router → Plain × Router) : Setup Unit := do
  let (result, router) := f (← get)
  set router
  if result.isOk then pure () else throw (.rejected result)

open Document

/-- Reads a text that a node must have. -/
def textOf (node : Document) (key : String) : Setup String := do
  read (← read? (node.get? key)).text

def sizeOf (host : Host) (node : Document) (key : String) : Setup Nat := do
  read ((← read? (node.get? key)).size host.number?)

/-- Reads a text for which there is a default. -/
def textOr (node : Document) (key default : String) : Setup String := do
  match ← read (node.get? key) with
  | some value => read value.text
  | none => pure default

/-- Adds a sink, with its file if it can be opened. -/
def add (host : Host) (tag : String) (sink : Sink) : Setup Unit :=
  change (·.addSink tag sink (host.obstacle? sink))

def sink (host : Host) (tag : String) : Option Document → Setup Unit
  | none => throw .malformed
  | some node => do
    let kind ← textOf node "type"
    if kind = "console" then
      add host tag .console
    else if kind = "file" then
      let path ← textOf node "filename"
      add host tag (.file path)
    else if kind = "rotating_file" then
      let path ← textOf node "filename"
      let size ← sizeOf host node "max_size"
      let count ← sizeOf host node "max_files"
      add host tag (.rotating path size count)
    else if kind = "syslog" then
      let ident ← textOr node "ident" tag
      add host tag (.syslog ident)
    else if kind = "loki" then
      let url ← textOf node "url"
      let job ← textOr node "job" "singleton_registry"
      add host tag (.loki url job tag)
    else
      throw (.rejected (Problem.unknownSink kind).report)

/-- Adds the sinks listed in the settings of a tag, if any are. -/
def sinks (host : Host) (tag : String) (settings : Entries) : Setup Unit :=
  match child? "sinks" settings with
  | some listed => listed.elements.forM (sink host tag)
  | none => pure ()

/-- Sets the threshold given in the settings of a tag, if one is. -/
def threshold (tag : String) (settings : Entries) : Setup Unit := do
  match child? "level" settings with
  | some word =>
    let word ← read word.text
    change (·.setThreshold tag (Severity.ofWord word))
  | none => pure ()

/-- Settings of the global tag. They come before those of any other tag, wherever they stand. -/
def everywhere (host : Host) (log : Entries) : Setup Unit :=
  match child? globalTag log with
  | some node => do
    let settings ← read node.entries
    threshold globalTag settings
    sinks host globalTag settings
  | none => pure ()

/-- Settings of one tag: its logger is made with the sinks known by then. -/
def tagged (host : Host) (entry : Document × Document) : Setup Unit := do
  let tag ← read entry.1.text
  if tag = globalTag then pure () else
    let settings ← read entry.2.entries
    sinks host tag settings
    change (·.register tag)
    threshold tag settings

def all (host : Host) (log : Document) : Setup Unit := do
  let log ← read log.entries
  everywhere host log
  log.forM (tagged host)

end Setup

namespace Service

def isInitialized (s : Service) : Bool := s.router.isSome

/-- Starts afresh with settings that are not applied yet. Only the type 0 of service exists. -/
def init (s : Service) (type : Int) (settings : Document) : Plain × Service :=
  if type = 0 then (.done (), { settings, router := some (Router.start {}) })
  else (Problem.unknownService.report, s)

/-- Starts with the settings in a file. -/
def initFile (s : Service) (host : Host) (type : Int) (path : String) : Plain × Service :=
  match host.files path with
  | some settings => s.init type settings
  | none => ((Problem.unloadableSettings path).report, s)

/-- Applies the section `log` of the settings. Where the settings as a whole are a scalar, the
section cannot even be looked for, and that error is thrown. -/
def apply (s : Service) (host : Host) : Except Thrown Plain × Service :=
  match s.router with
  | none => (.ok Problem.serviceNotRunning.report, s)
  | some router =>
    match s.settings.entries with
    | .error _ => (.error .malformed, s)
    | .ok entries =>
      match Document.child? "log" entries with
      | none => (.ok (.done ()), s)
      | some log =>
        let (ended, router) := (Setup.all host log).run.run router
        (.ok (match ended with
          | .ok () => .done ()
          | .error refusal => refusal.result), { s with router := some router })

/-- Starts with the settings in a file and applies them. -/
def startFile (s : Service) (host : Host) (path : String) : Except Thrown Plain × Service :=
  let (result, s) := s.initFile host 0 path
  if result.isOk then s.apply host else (.ok result, s)

def shutdown (s : Service) : Service := { s with router := none }

/-- Changes the router of a running service. -/
def change (s : Service) (f : Router → Plain × Router) : Plain × Service :=
  match s.router with
  | none => (Problem.serviceNotRunning.report, s)
  | some router =>
    let (result, router) := f router
    (result, { s with router := some router })

/-- Messages to a service that is not running are lost. -/
def log (s : Service) (tag : String) (severity : Severity) (text : String) :
    List Delivery × Service :=
  match s.router with
  | none => ([], s)
  | some router =>
    let (deliveries, router) := router.log tag severity text
    (deliveries, { s with router := some router })

end Service

end Singletons.Logging
