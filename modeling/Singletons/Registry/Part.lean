import Singletons.Registry.Basic
import Singletons.Registry.Creation
/-!
# Requests to the parts

The cache, the flags, the graph and the state of destruction can be asked one by one, past the
checks that the registry as a whole makes.
-/

namespace Singletons

inductive PartRequest where
  | bind (n : Name) (object : Option Object)
  | find (n : Name)
  | clearCache
  | mark (n : Name)
  | unmark (n : Name)
  | exclude (n : Name) (value : Bool)
  | isExcluded (n : Name)
  | before (n : Name)
  | after (n : Name)
  | beginDestruction
  | endDestruction
  | limit
  | detachDependents (n : Name)
  | detachContained (n : Name)
  | scrub (n : Name)
  | removeDependencies (n : Name)
  | clearGraph
  | hasDisposable (n : Name)

namespace Registry

def partRequest (r : Registry) : PartRequest → Advance
  | .bind n object => { r with cache := r.cache.bind n object }.answer .nothing
  | .find n => r.answer (.object (r.cache.find? n))
  | .clearCache => { r with cache := r.cache.clear }.answer .nothing
  | .mark n =>
    let (allowed, flags) := r.flags.mark n
    { r with flags }.answer (.flag allowed)
  | .unmark n =>
    let (found, flags) := r.flags.unmark n
    { r with flags }.answer (.flag found)
  | .exclude n value => { r with flags := r.flags.setExcluded n value }.answer .nothing
  | .isExcluded n => r.answer (.flag (r.flags.isExcluded n))
  | .before n => r.before n
  | .after n =>
    let (r, notes) := r.unmark n
    { registry := r, progress := .answered (.ok .nothing), notes }
  | .beginDestruction => { r with destroying := true }.answer .nothing
  | .endDestruction => { r with destroying := false }.answer .nothing
  | .limit => r.answer (.number r.config.limit)
  | .detachDependents n =>
    { r with graph := r.graph.detachDependents n }.answer (.names (r.graph.dependentsOf n))
  | .detachContained n =>
    { r with graph := r.graph.detachContained n }.answer (.names (r.graph.containedIn n))
  | .scrub n => { r with graph := r.graph.scrub n }.answer .nothing
  | .removeDependencies n => { r with graph := r.graph.removeDependencies n }.answer .nothing
  | .clearGraph => { r with graph := r.graph.clear }.answer .nothing
  | .hasDisposable n => r.answer (.flag (r.disposables.contains n))

end Registry

end Singletons
