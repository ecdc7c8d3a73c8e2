import Singletons.Registry.Binding
import Singletons.Registry.Creation
import Singletons.Registry.Teardown
/-!
# Requests

What a registry can be asked. Every request is answered at once, or waits for a callback, or starts
a teardown.
-/

namespace Singletons

inductive Request where
  | register (n : Name) (object : Option Object)
  | lookup (n : Name) (early : Bool)
  | stage (n : Name) (factory : Option CallbackId)
  | remove (n : Name)
  | contains (n : Name)
  | count
  | names
  | getOrCreate (n : Name) (factory : Option CallbackId)
  /-- As `getOrCreate`, with nothing but the object in the answer of a success. -/
  | getOrCreateBare (n : Name) (factory : Option CallbackId)
  | suppress (faults : List Fault)
  | setInCreation (n : Name) (value : Bool)
  | isCurrentlyInCreation (n : Name)
  | isInCreation (n : Name)
  | depend (n dependent : Name)
  | contain (container part : Name)
  | isDependent (n candidate : Name)
  | hasDependents (n : Name)
  | dependents (n : Name)
  | dependencies (n : Name)
  | contained (n : Name)
  | disposable (n : Name) (handle : Handle)
  | destroy (n : Name)
  | destroyAll
  | inDestruction
  | takeFaults
  | config

namespace Registry

/-- Starts a request. Taking a name out of the check against creating it twice is asked for by
declaring it not in creation. -/
def request (r : Registry) : Request → Advance
  | .register n object => r.register n object
  | .lookup n early => r.lookup n early
  | .stage n factory => r.stage n factory
  | .remove n => { r with cache := r.cache.remove n }.answer .nothing
  | .contains n => r.answer (.flag (r.cache.contains n))
  | .count => r.answer (.number r.cache.registered.length)
  | .names => r.answer (.names r.cache.registered)
  | .getOrCreate n factory => r.getOrCreate n factory
  | .getOrCreateBare n factory => (r.getOrCreate n factory).bare
  | .suppress faults => (faults.foldl suppress r).answer .nothing
  | .setInCreation n value => { r with flags := r.flags.setExcluded n !value }.answer .nothing
  | .isCurrentlyInCreation n => r.answer (.flag (r.flags.isCurrentlyInCreation n))
  | .isInCreation n => r.answer (.flag (r.flags.isInCreation n))
  | .depend n dependent => { r with graph := r.graph.depend n dependent }.answer .nothing
  | .contain container part => { r with graph := r.graph.contain container part }.answer .nothing
  | .isDependent n candidate => r.answer (.flag (r.graph.isDependent n candidate))
  | .hasDependents n => r.answer (.flag (r.graph.hasDependents n))
  | .dependents n => r.answer (.names (r.graph.dependentsOf n))
  | .dependencies n => r.answer (.names (r.graph.dependenciesOf n))
  | .contained n => r.answer (.names (r.graph.containedIn n))
  | .disposable n handle =>
    { r with disposables := r.disposables.insert n handle }.answer .nothing
  | .destroy n => r.destroy n
  | .destroyAll => r.destroyAll
  | .inDestruction => r.answer (.flag r.destroying)
  | .takeFaults => { r with releaseFaults := [] }.answer (.faults r.releaseFaults)
  | .config => r.answer (.config r.config)

/-- Goes on after the callback that an operation waited for has ended. -/
def resume (r : Registry) (ended : Except Thrown Returned) : Waiting → Advance
  | .creating n outermost bare =>
    let advance := r.created n outermost ended
    if bare then advance.bare else advance
  | .promoting n f => r.madeEarly n f ended
  | .releasing n rest => r.released n rest ended

end Registry

end Singletons
