import Singletons.Document
/-!
# Configuration of a registry

A configuration is read from the section `registry` of a document. A limit or a path that cannot be
read gives way to the default; exclusions that cannot be read are an error. Which texts are numbers
is up to the reader that is passed on.
-/

namespace Singletons

structure Config where
  /-- How many faults are kept where faults are collected. -/
  limit : Nat := 100
  /-- Names without the check against creating them twice at once. -/
  exclusions : List Name := []
  /-- Where the configuration of the log is; the empty text stands for none. -/
  logging : String := ""

namespace Config

open Document in
def ofDocument (number? : String → Option Nat) (root : Document) : Except Malformed Config := do
  match ← root.get? "registry" with
  | none => return {}
  | some node =>
    let entries ← node.entries
    let exclusions ← match child? "creation_check_exclusions" entries with
      | some listed => listed.texts
      | none => pure []
    return {
      limit := ((child? "suppressed_fault_limit" entries).bind (size? number?)).getD 100
      exclusions
      logging := match child? "logging" entries with
        | some (.scalar path) => path
        | _ => "" }

end Config

end Singletons
