import Singletons.Registry.Basic
import Singletons.Registry.Refusal
/-!
# Teardown

Destroying a name destroys what depends on it first, then calls its release handle, then destroys
what it contained. No name is visited twice on the way, so cycles do no harm. Destroying all names
starts over at each name with a handle, the youngest first, and leaves an empty registry.
-/

namespace Singletons.Registry

private def teardownTag : String := "TeardownOrchestrator"

private def retrieved (n : Name) (count : Nat) : Note :=
  .message teardownTag .trace s!"Retrieved dependent singletons of '{n}': {count}"

private def releaseFailed (n : Name) (message : String) : Note :=
  .message teardownTag .warning s!"Destruction of singleton '{n}' failed: {message}"

def destroy (r : Registry) (n : Name) : Advance where
  registry := r
  progress := .tearing { items := [.root n] }

def destroyAll (r : Registry) : Advance where
  registry := { r with destroying := true }
  progress := .tearing { items := r.disposables.names.reverse.map .root ++ [.finish] }
  notes := [.message teardownTag .info "Destroying singletons"]

/-- Takes a name out of the cache, the handles and the index of dependents. -/
def withdraw (r : Registry) (n : Name) : Registry :=
  { r with
    cache := r.cache.remove n
    disposables := r.disposables.erase n
    graph := r.graph.detachDependents n }

/-- Does the next thing on the agenda of a teardown. -/
def teardown (r : Registry) (agenda : Agenda) : Advance :=
  match agenda.items with
  | [] => r.answer .nothing
  | .root n :: rest => { registry := r, progress := .tearing { items := .visit n :: rest } }
  | .visit n :: rest =>
    if agenda.visited.contains n then
      { registry := r, progress := .tearing { agenda with items := rest } }
    else
      let dependents := r.graph.dependentsOf n
      let handle := (r.disposables.handle? n).getD .null
      { registry := r.withdraw n
        progress := .tearing {
          items := dependents.map .visit ++ .release n handle :: .inside n :: .forget n :: rest
          visited := agenda.visited.insert n }
        notes := if dependents.isEmpty then [] else [retrieved n dependents.length] }
  | .release n handle :: rest =>
    let agenda := { agenda with items := rest }
    match handle with
    | .null => { registry := r, progress := .tearing agenda }
    | .idle => { registry := r, progress := .tearing agenda, notes := [.released n handle] }
    | .callback id =>
      { registry := r, progress := .calling id (.releasing n agenda), notes := [.released n handle] }
  | .inside n :: rest =>
    { registry := { r with graph := r.graph.detachContained n }
      progress := .tearing { agenda with items := (r.graph.containedIn n).map .visit ++ rest } }
  | .forget n :: rest =>
    { registry := { r with graph := (r.graph.scrub n).removeDependencies n }
      progress := .tearing { agenda with items := rest } }
  | .finish :: rest =>
    { registry := { r with graph := r.graph.clear, cache := r.cache.clear, destroying := false }
      progress := .tearing { agenda with items := rest } }

/-- Why a release failed, if it did. -/
def releaseFailure? : Except Thrown Returned → Option String
  | .error thrown => some (thrown.text?.getD "unknown exception")
  | .ok returned =>
    let result := returned.asResult
    if result.isOk then none else some (result.detail.getD result.code.name)

/-- Goes on after a release handle has ended. Nothing is thrown out of a teardown: a failure is
recorded while fewer than the limit are. -/
def released (r : Registry) (n : Name) (rest : Agenda) (ended : Except Thrown Returned) : Advance :=
  match releaseFailure? ended with
  | none => { registry := r, progress := .tearing rest }
  | some reason =>
    { registry :=
        if r.releaseFaults.length < r.config.limit then
          { r with releaseFaults := r.releaseFaults ++ [(Refusal.release reason).fault n] }
        else r
      progress := .tearing rest
      notes := [releaseFailed n reason] }

end Singletons.Registry
