import Singletons.Answer
import Singletons.Logging.Service
/-!
# Requests to the log

What the log service can be asked, how configurations of registries are loaded, and what can be
asked of a router that stands alone.
-/

namespace Singletons.Logging

inductive Request where
  | init (type : Int) (settings : Document)
  | initFile (type : Int) (path : String)
  | start (path : String)
  | apply
  | shutdown
  | flush
  | isInitialized
  | setThreshold (tag : String) (s : Severity)
  | enable (tag : String)
  | disable (tag : String)
  | log (tag : String) (s : Severity) (text : String)
  /-- A message under a tag that ends at its first NUL. -/
  | announce (tag : String) (s : Severity) (text : String)
  | severity (word : String)
  | readConfig (root : Document)
  | loadConfig (path : String)
  | tryLoadConfig (path : String)
  | applyConfig (config : Config)

inductive RouterRequest where
  | new
  | start
  | stop
  | flush
  | register (tag : String)
  | setThreshold (tag : String) (s : Severity)
  /-- Adds a sink; there may be something to say about its file if that cannot be opened. -/
  | addSink (tag : String) (sink : Sink) (obstacle? : Option String)
  | log (tag : String) (s : Severity) (text : String)
  | enable (tag : String)
  | disable (tag : String)

/-- What a request is answered with, what it writes, and the state `σ` it leaves. -/
structure Served (σ : Type) where
  reply : Reply
  state : σ
  deliveries : List Delivery := []

private def plain {σ : Type} (p : Plain × σ) : Served σ := { reply := .ok (.plain p.1), state := p.2 }

private def thrownOr {σ : Type} (p : Except Thrown Plain × σ) : Served σ :=
  { reply := p.1.map .plain, state := p.2 }

private def done {σ : Type} (state : σ) : Served σ := { reply := .ok .nothing, state }

private def written {σ : Type} (p : List Delivery × σ) : Served σ :=
  { reply := .ok .nothing, state := p.2, deliveries := p.1 }

private def configTag : String := "RegistryConfig"

/-- Reads the configuration of a registry from a document or fails. -/
def configOf (host : Host) (root : Document) : Except Thrown Config :=
  match Config.ofDocument host.number? root with
  | .ok config => .ok config
  | .error _ => .error .malformed

def loadConfig (host : Host) (path : String) : Except Thrown Config :=
  match host.files path with
  | some root => configOf host root
  | none => .error .malformed

namespace Service

/-- Loads a configuration and reports a failure instead of throwing it. -/
def tryLoadConfig (s : Service) (host : Host) (path : String) : Served Service :=
  match loadConfig host path with
  | .ok config => { reply := .ok (.loaded (.done config)), state := s }
  | .error _ =>
    let (deliveries, s) := s.log configTag .error
      s!"Failed to load registry config '{path}': {malformedText}"
    { reply := .ok (.loaded (Problem.unloadableConfig path).report), state := s, deliveries }

/-- Starts the log as a registry's configuration says, if it says anything. -/
def applyConfig (s : Service) (host : Host) (config : Config) : Served Service :=
  if config.logging = "" then { reply := .ok (.plain (.done ())), state := s } else
    match s.startFile host config.logging with
    | (.error thrown, s) => { reply := .error thrown, state := s }
    | (.ok result, s) =>
      if result.isOk then
        let (deliveries, s) := s.log configTag .info s!"Logging initialized from {config.logging}"
        { reply := .ok (.plain (.done ())), state := s, deliveries }
      else { reply := .ok (.plain (result.forwardWith "registry logging")), state := s }

def serve (s : Service) (host : Host) : Request → Served Service
  | .init type settings => plain (s.init type settings)
  | .initFile type path => plain (s.initFile host type path)
  | .start path => thrownOr (s.startFile host path)
  | .apply => thrownOr (s.apply host)
  | .shutdown => done s.shutdown
  | .flush => done s
  | .isInitialized => { reply := .ok (.flag s.isInitialized), state := s }
  | .setThreshold tag severity => plain (s.change (·.setThreshold tag severity))
  | .enable tag => plain (s.change fun r => (.done (), r.enable tag))
  | .disable tag => plain (s.change fun r => (.done (), r.disable tag))
  | .log tag severity text => written (s.log tag severity text)
  | .announce tag severity text => written (s.log (untilNul tag) severity text)
  | .severity word => { reply := .ok (.severity (.ofWord word)), state := s }
  | .readConfig root => { reply := (configOf host root).map .config, state := s }
  | .loadConfig path => { reply := (Logging.loadConfig host path).map .config, state := s }
  | .tryLoadConfig path => s.tryLoadConfig host path
  | .applyConfig config => s.applyConfig host config

end Service

def Router.serve (r : Router) : RouterRequest → Served Router
  | .new => done {}
  | .start => plain (.done (), r.start)
  | .stop => done r.stop
  | .flush => done r
  | .register tag => plain (r.register tag)
  | .setThreshold tag severity => plain (r.setThreshold tag severity)
  | .addSink tag sink obstacle? => plain (r.addSink tag sink obstacle?)
  | .log tag severity text => written (r.log tag severity text)
  | .enable tag => done (r.enable tag)
  | .disable tag => done (r.disable tag)

end Singletons.Logging
