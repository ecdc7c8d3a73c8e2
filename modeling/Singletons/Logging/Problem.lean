import Singletons.Callback
/-!
# What goes wrong with the log

Each cause for which setting up the log is refused, with its code and wording. What the reader of
documents and those who open files say about their own errors is quoted in it.
-/

namespace Singletons.Logging

inductive Problem where
  | serviceNotRunning
  | routerNotRunning
  | unknownService
  | unknownSink (kind : String)
  | unknownLogger (tag : String)
  | file (path reason : String)
  | rotatingFile (path reason : String)
  | unloadableSettings (path : String)
  | malformedSettings
  | unloadableConfig (path : String)
  deriving DecidableEq, Repr

namespace Problem

def code : Problem → Code
  | serviceNotRunning => .invalidState
  | routerNotRunning => .invalidState
  | unknownService => .notSupported
  | unknownSink _ => .notSupported
  | unknownLogger _ => .notFound
  | file _ _ => .invalidArgument
  | rotatingFile _ _ => .invalidArgument
  | unloadableSettings _ => .invalidArgument
  | malformedSettings => .invalidArgument
  | unloadableConfig _ => .invalidArgument

def message : Problem → String
  | serviceNotRunning => "logger is not initialized"
  | routerNotRunning => "logging backend is not initialized"
  | unknownService => "unknown logger type"
  | unknownSink kind => s!"unknown sink type: {kind}"
  | unknownLogger tag => s!"logger '{tag}' is not registered"
  | file path reason => s!"file sink '{path}': {reason}"
  | rotatingFile path reason => s!"rotating file sink '{path}': {reason}"
  | unloadableSettings path => s!"logging config '{path}' load error: {malformedText}"
  | malformedSettings => s!"logging config error: {malformedText}"
  | unloadableConfig path => s!"registry config '{path}': {malformedText}"

def report {α : Type} (p : Problem) : Result String α := .report p.code (some p.message)

end Problem

end Singletons.Logging
