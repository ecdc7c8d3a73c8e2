import Singletons.Callback
import Singletons.Logging.Severity
/-!
# Notes

While it works, the registry leaves notes: messages for the log, and the handles it releases.
Nothing it decides depends on what becomes of a note.
-/

namespace Singletons

open Logging

inductive Note where
  | message (tag : String) (severity : Severity) (text : String)
  | released (name : Name) (handle : Handle)

end Singletons
