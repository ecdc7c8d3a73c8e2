import Singletons.Proofs.Graph.Links
import Singletons.Registry.Part
import Singletons.Registry.Request
/-!
# What operations do to a registry

Only a request to create a name marks it, and only the end of its factory strikes it. A bound name
loses its object only when it is removed, torn down, or created with another object.
-/

namespace Singletons

/-- The name that a request is to create, and the factory for it. -/
def Request.creation? : Request → Option (Name × Option CallbackId)
  | getOrCreate n factory => some (n, factory)
  | getOrCreateBare n factory => some (n, factory)
  | _ => none

/-- Whether a request files an edge of the graph. -/
def Request.links : Request → Bool
  | depend _ _ => true
  | contain _ _ => true
  | _ => false

def Waiting.creates : Waiting → List Name
  | creating n _ _ => [n]
  | promoting _ _ => []
  | releasing _ _ => []

def Progress.waiting : Progress → List Waiting
  | answered _ => []
  | calling _ waiting => [waiting]
  | tearing _ => []

def Advance.creates (a : Advance) : List Name := a.progress.waiting.flatMap (·.creates)

theorem Advance.creates_bare (a : Advance) : a.bare.creates = a.creates := by
  obtain ⟨r, progress, notes⟩ := a
  cases progress with
  | answered reply => rfl
  | calling f waiting => cases waiting <;> rfl
  | tearing agenda => rfl

def made? : Except Thrown Returned → Option Object
  | .ok returned => returned.asOutcome.object?
  | .error _ => none

/-- The object that the end of the awaited callback binds to a name, if it binds one. -/
def Waiting.makes (ended : Except Thrown Returned) (n : Name) : Waiting → Option Object
  | creating m _ _ => if m = n then made? ended else none
  | promoting _ _ => none
  | releasing _ _ => none

/-- Whether the next thing to do takes a name out of the cache. -/
def Agenda.removes (agenda : Agenda) (n : Name) : Bool :=
  match agenda.items with
  | .visit m :: _ => m = n && !agenda.visited.contains m
  | .finish :: _ => true
  | _ => false

theorem Advance.registry_bare (a : Advance) : a.bare.registry = a.registry := rfl

namespace Flags

theorem isExcluded_mark (f : Flags) (n m : Name) : (f.mark n).2.isExcluded m = f.isExcluded m := by
  unfold mark
  split <;> rfl

theorem isExcluded_unmark (f : Flags) (n m : Name) :
    (f.unmark n).2.isExcluded m = f.isExcluded m := by
  unfold unmark
  split <;> rfl

end Flags

namespace Cache

theorem find?_settle (c : Cache) (n m : Name) (f : CallbackId) (made : Option Object) :
    (c.settle n f made).cache.find? m = c.find? m := by
  unfold settle
  split
  · rfl
  · split
    · rfl
    · rfl
    · show (if _ then _ else _ : Cache).find? m = _
      split <;> rfl
    · split <;> rfl

end Cache

namespace Registry

theorem suppress_eq (r : Registry) (fault : Fault) :
    ∃ suppressed, r.suppress fault = { r with suppressed } := by
  unfold suppress
  split
  · split
    · exact ⟨_, rfl⟩
    · exact ⟨r.suppressed, rfl⟩
  · exact ⟨r.suppressed, rfl⟩

theorem foldl_suppress_eq (r : Registry) (faults : List Fault) :
    ∃ suppressed, faults.foldl suppress r = { r with suppressed } := by
  induction faults generalizing r with
  | nil => exact ⟨r.suppressed, rfl⟩
  | cons fault faults ih =>
    obtain ⟨first, h⟩ := r.suppress_eq fault
    obtain ⟨rest, hr⟩ := ih { r with suppressed := first }
    exact ⟨rest, by rw [List.foldl_cons, h, hr]⟩

theorem register_eq (r : Registry) (n : Name) (object : Option Object) :
    ∃ reply notes cache, r.register n object =
        { registry := { r with cache }, progress := .answered reply, notes } ∧
      (cache = r.cache ∨ r.cache.bound[n]? = none ∧ cache = r.cache.bind n object) := by
  unfold register
  split
  · exact ⟨_, _, _, rfl, .inl rfl⟩
  · split
    · exact ⟨_, _, _, rfl, .inr ⟨‹_›, rfl⟩⟩
    · split
      · exact ⟨_, _, _, rfl, .inl rfl⟩
      · exact ⟨_, _, _, rfl, .inl rfl⟩

theorem stage_eq (r : Registry) (n : Name) (factory : Option CallbackId) :
    ∃ reply notes cache, r.stage n factory =
        { registry := { r with cache }, progress := .answered reply, notes } ∧
      (cache = r.cache ∨ ∃ f, cache = r.cache.stage n f) := by
  unfold stage
  split
  · exact ⟨_, _, _, rfl, .inl rfl⟩
  · split
    · exact ⟨_, _, _, rfl, .inl rfl⟩
    · exact ⟨_, _, _, rfl, .inr ⟨_, rfl⟩⟩

theorem lookup_eq (r : Registry) (n : Name) (early : Bool) :
    (∃ o, r.lookup n early = r.answer (.object o)) ∨
      ∃ f, r.lookup n early =
        { registry := { r with cache := r.cache.unstage n }
          progress := .calling f (.promoting n f) } := by
  unfold lookup
  split
  · exact .inl ⟨_, rfl⟩
  · exact .inr ⟨_, rfl⟩

theorem getOrCreate_calling {r : Registry} {n : Name} (f : CallbackId)
    (unbound : r.cache.find? n = none) (standing : r.destroying = false)
    (allowed : (r.flags.mark n).1 = true) :
    ∃ notes, r.getOrCreate n (some f) =
      { registry :=
          { r with
            flags := (r.flags.mark n).2
            suppressed := some (r.suppressed.getD []) }
        progress := .calling f (.creating n r.suppressed.isNone false)
        notes } := by
  have marked : r.mark n = some { r with flags := (r.flags.mark n).2 } := if_pos allowed
  simp only [getOrCreate, unbound, standing, Bool.false_eq_true, if_false, marked]
  exact ⟨_, rfl⟩

theorem getOrCreate_underway {r : Registry} {n : Name} (f : CallbackId)
    (unbound : r.cache.find? n = none) (standing : r.destroying = false)
    (refused : (r.flags.mark n).1 = false) :
    ∃ notes, r.getOrCreate n (some f) = r.refuse (Refusal.inCreation.fault n) notes := by
  have unmarked : r.mark n = none := if_neg (Bool.eq_false_iff.mp refused)
  simp only [getOrCreate, unbound, standing, Bool.false_eq_true, if_false, unmarked]
  exact ⟨_, rfl⟩

/-- A request to create a name is answered without a change, or marks the name and calls the
factory. -/
theorem getOrCreate_eq (r : Registry) (n : Name) (factory : Option CallbackId) :
    (∃ reply notes, r.getOrCreate n factory =
        { registry := r, progress := .answered reply, notes }) ∨
      ∃ f notes, factory = some f ∧ r.cache.find? n = none ∧ r.destroying = false ∧
        (r.flags.mark n).1 = true ∧ r.getOrCreate n factory =
          { registry :=
              { r with
                flags := (r.flags.mark n).2
                suppressed := some (r.suppressed.getD []) }
            progress := .calling f (.creating n r.suppressed.isNone false)
            notes } := by
  cases factory with
  | none => exact .inl ⟨_, _, rfl⟩
  | some f =>
    cases unbound : r.cache.find? n with
    | some o =>
      have bound : r.getOrCreate n (some f) = r.answer (.creation (.done o)) := by
        simp only [getOrCreate, unbound]
      exact .inl ⟨_, [], bound⟩
    | none =>
      by_cases standing : r.destroying = true
      · refine .inl ?_
        simp only [getOrCreate, unbound, standing, if_true]
        exact ⟨_, _, rfl⟩
      · rw [Bool.not_eq_true] at standing
        by_cases allowed : (r.flags.mark n).1 = true
        · obtain ⟨notes, h⟩ := getOrCreate_calling f unbound standing allowed
          exact .inr ⟨f, notes, rfl, rfl, standing, allowed, h⟩
        · obtain ⟨notes, h⟩ :=
            getOrCreate_underway f unbound standing (Bool.eq_false_iff.mpr allowed)
          exact .inl ⟨_, notes, h⟩

theorem request_underway {r : Registry} {q : Request} {n : Name} {f : CallbackId}
    (hq : q.creation? = some (n, some f)) (unbound : r.cache.find? n = none)
    (standing : r.destroying = false) (refused : (r.flags.mark n).1 = false) :
    (r.request q).progress = .answered (.ok (.creation
        (.report .currentlyInCreation (some (Refusal.inCreation.fault n))))) ∧
      (r.request q).registry = r := by
  obtain ⟨_, h⟩ := getOrCreate_underway f unbound standing refused
  cases q with
  | getOrCreate m factory =>
    obtain ⟨rfl, rfl⟩ := Prod.mk.inj (Option.some.inj hq)
    rw [request, h]
    exact ⟨rfl, rfl⟩
  | getOrCreateBare m factory =>
    obtain ⟨rfl, rfl⟩ := Prod.mk.inj (Option.some.inj hq)
    rw [request, h]
    exact ⟨rfl, rfl⟩
  | _ => simp [Request.creation?] at hq

theorem request_calling {r : Registry} {q : Request} {n : Name} {f : CallbackId}
    (hq : q.creation? = some (n, some f)) (unbound : r.cache.find? n = none)
    (standing : r.destroying = false) (allowed : (r.flags.mark n).1 = true) :
    ∃ waiting, (r.request q).progress = .calling f waiting := by
  obtain ⟨_, h⟩ := getOrCreate_calling f unbound standing allowed
  cases q with
  | getOrCreate m factory =>
    obtain ⟨rfl, rfl⟩ := Prod.mk.inj (Option.some.inj hq)
    rw [request, h]
    exact ⟨_, rfl⟩
  | getOrCreateBare m factory =>
    obtain ⟨rfl, rfl⟩ := Prod.mk.inj (Option.some.inj hq)
    rw [request, h]
    exact ⟨_, rfl⟩
  | _ => simp [Request.creation?] at hq

theorem getOrCreate_creates (r : Registry) (n : Name) (factory : Option CallbackId) :
    ((r.getOrCreate n factory).registry.flags = r.flags ∧
        (r.getOrCreate n factory).creates = []) ∨
      (r.cache.find? n = none ∧ (r.flags.mark n).1 = true ∧
        (r.getOrCreate n factory).registry.flags = (r.flags.mark n).2 ∧
        (r.getOrCreate n factory).creates = [n]) := by
  rcases r.getOrCreate_eq n factory with ⟨_, _, h⟩ | ⟨_, _, _, unbound, _, allowed, h⟩
  · exact .inl (by rw [h]; exact ⟨rfl, rfl⟩)
  · exact .inr ⟨unbound, allowed, by rw [h]; exact ⟨rfl, rfl⟩⟩

theorem cache_getOrCreate (r : Registry) (n : Name) (factory : Option CallbackId) :
    (r.getOrCreate n factory).registry.cache = r.cache := by
  rcases r.getOrCreate_eq n factory with ⟨_, _, h⟩ | ⟨_, _, _, _, _, _, h⟩
  · rw [h]
  · rw [h]

/-- A request leaves the flags alone, changes an exclusion, or marks the unbound name that it is
to create. -/
theorem request_creates (r : Registry) (q : Request) :
    ((r.request q).registry.flags = r.flags ∧ (r.request q).creates = []) ∨
      (∃ n value, q = .setInCreation n value ∧
        (r.request q).registry.flags = r.flags.setExcluded n !value ∧
        (r.request q).creates = []) ∨
      ∃ n, r.cache.find? n = none ∧ (r.flags.mark n).1 = true ∧
        (r.request q).registry.flags = (r.flags.mark n).2 ∧ (r.request q).creates = [n] := by
  cases q with
  | register n object =>
    obtain ⟨_, _, _, h, _⟩ := r.register_eq n object
    exact .inl (by rw [request, h]; exact ⟨rfl, rfl⟩)
  | lookup n early =>
    rcases r.lookup_eq n early with ⟨_, h⟩ | ⟨_, h⟩
    · exact .inl (by rw [request, h]; exact ⟨rfl, rfl⟩)
    · exact .inl (by rw [request, h]; exact ⟨rfl, rfl⟩)
  | stage n factory =>
    obtain ⟨_, _, _, h, _⟩ := r.stage_eq n factory
    exact .inl (by rw [request, h]; exact ⟨rfl, rfl⟩)
  | getOrCreate n factory =>
    rcases r.getOrCreate_creates n factory with h | h
    · exact .inl h
    · exact .inr (.inr ⟨n, h⟩)
  | getOrCreateBare n factory =>
    rw [request, Advance.creates_bare]
    rcases r.getOrCreate_creates n factory with h | h
    · exact .inl h
    · exact .inr (.inr ⟨n, h⟩)
  | suppress faults =>
    obtain ⟨_, h⟩ := r.foldl_suppress_eq faults
    exact .inl (by rw [request, h]; exact ⟨rfl, rfl⟩)
  | setInCreation n value => exact .inr (.inl ⟨n, value, rfl, rfl, rfl⟩)
  | _ => exact .inl ⟨rfl, rfl⟩

theorem teardown_creates (r : Registry) (agenda : Agenda) :
    (r.teardown agenda).registry.flags = r.flags ∧ (r.teardown agenda).creates = [] := by
  unfold teardown
  split
  · exact ⟨rfl, rfl⟩
  · exact ⟨rfl, rfl⟩
  · split
    · exact ⟨rfl, rfl⟩
    · exact ⟨rfl, rfl⟩
  · dsimp only
    split
    · exact ⟨rfl, rfl⟩
    · exact ⟨rfl, rfl⟩
    · exact ⟨rfl, rfl⟩
  · exact ⟨rfl, rfl⟩
  · exact ⟨rfl, rfl⟩
  · exact ⟨rfl, rfl⟩

/-- However a factory ends, its creation is answered, its name struck, and what it made bound. -/
theorem created_eq (r : Registry) (n : Name) (outermost : Bool)
    (ended : Except Thrown Returned) :
    ∃ reply notes, r.created n outermost ended =
      { registry :=
          { (r.endCreation n outermost).1 with
            cache := (made? ended).elim r.cache fun o => r.cache.bind n (some o) }
        progress := .answered reply, notes } := by
  cases ended with
  | error thrown =>
    rw [created]
    split
    · exact ⟨_, _, rfl⟩
    · exact ⟨_, _, rfl⟩
  | ok returned =>
    rw [created, made?]
    cases returned.asOutcome with
    | created object =>
      cases object with
      | none => exact ⟨_, _, rfl⟩
      | some o => exact ⟨_, _, rfl⟩
    | alreadyPresent fault =>
      dsimp only
      split
      · exact ⟨_, _, rfl⟩
      · exact ⟨_, _, rfl⟩
    | failed fault => exact ⟨_, _, rfl⟩

theorem released_eq (r : Registry) (n : Name) (rest : Agenda) (ended : Except Thrown Returned) :
    ∃ releaseFaults notes, r.released n rest ended =
      { registry := { r with releaseFaults }, progress := .tearing rest, notes } := by
  unfold released
  split
  · exact ⟨r.releaseFaults, _, rfl⟩
  · split
    · exact ⟨_, _, rfl⟩
    · exact ⟨r.releaseFaults, _, rfl⟩

theorem madeEarly_eq (r : Registry) (n : Name) (f : CallbackId) (ended : Except Thrown Returned) :
    ∃ reply notes cache, r.madeEarly n f ended =
        { registry := { r with cache }, progress := .answered reply, notes } ∧
      ∀ m, cache.find? m = r.cache.find? m := by
  cases ended with
  | error thrown => exact ⟨_, _, _, rfl, fun _ => rfl⟩
  | ok returned => exact ⟨_, _, _, rfl, fun m => Cache.find?_settle _ _ _ _ _⟩

/-- The end of a factory answers the creation, be it a bare one. -/
theorem resume_creating_eq (r : Registry) (n : Name) (outermost bare : Bool)
    (ended : Except Thrown Returned) :
    ∃ reply notes, r.resume ended (.creating n outermost bare) =
      { registry :=
          { (r.endCreation n outermost).1 with
            cache := (made? ended).elim r.cache fun o => r.cache.bind n (some o) }
        progress := .answered reply, notes } := by
  obtain ⟨reply, notes, h⟩ := r.created_eq n outermost ended
  cases bare with
  | false => exact ⟨reply, notes, h⟩
  | true => exact ⟨_, notes, congrArg Advance.bare h⟩

/-- The end of a callback calls no other one. -/
theorem waiting_resume (r : Registry) (ended : Except Thrown Returned) (w : Waiting) :
    (r.resume ended w).progress.waiting = [] := by
  cases w with
  | creating n outermost bare =>
    obtain ⟨_, _, h⟩ := r.resume_creating_eq n outermost bare ended
    rw [h]
    rfl
  | promoting n f =>
    obtain ⟨_, _, _, h, _⟩ := r.madeEarly_eq n f ended
    rw [resume, h]
    rfl
  | releasing n rest =>
    obtain ⟨_, _, h⟩ := r.released_eq n rest ended
    rw [resume, h]
    rfl

/-- Only the end of a factory strikes a name, and it strikes its own. -/
theorem resume_creates (r : Registry) (ended : Except Thrown Returned) (w : Waiting) :
    (r.resume ended w).creates = [] ∧
      (w.creates = [] ∧ (r.resume ended w).registry.flags = r.flags ∨
        ∃ n, w.creates = [n] ∧ (r.resume ended w).registry.flags = (r.flags.unmark n).2) := by
  refine ⟨by rw [Advance.creates, waiting_resume, List.flatMap_nil], ?_⟩
  cases w with
  | creating n outermost bare =>
    obtain ⟨_, _, h⟩ := r.resume_creating_eq n outermost bare ended
    rw [h]
    exact .inr ⟨n, rfl, rfl⟩
  | promoting n f =>
    obtain ⟨_, _, _, h, _⟩ := r.madeEarly_eq n f ended
    rw [resume, h]
    exact .inl ⟨rfl, rfl⟩
  | releasing n rest =>
    obtain ⟨_, _, h⟩ := r.released_eq n rest ended
    rw [resume, h]
    exact .inl ⟨rfl, rfl⟩

/-- What a registry is made from. -/
def settings (r : Registry) : Config × (Name → Name) := (r.config, r.graph.canonical)

/-- No request changes the settings, and only those that file an edge the graph. -/
theorem request_keeps (r : Registry) (q : Request) :
    (r.request q).registry.settings = r.settings ∧
      (q.links = false → (r.request q).registry.graph = r.graph) := by
  have same {r' : Registry} (h : (r.request q).registry = r') (config : r'.config = r.config)
      (graph : r'.graph = r.graph) : (r.request q).registry.settings = r.settings ∧
        (q.links = false → (r.request q).registry.graph = r.graph) := by
    rw [h, settings, config, graph]
    exact ⟨rfl, fun _ => rfl⟩
  cases q with
  | register n object =>
    obtain ⟨_, _, _, h, _⟩ := r.register_eq n object
    exact same (congrArg Advance.registry h) rfl rfl
  | lookup n early =>
    rcases r.lookup_eq n early with ⟨_, h⟩ | ⟨_, h⟩
    · exact same (congrArg Advance.registry h) rfl rfl
    · exact same (congrArg Advance.registry h) rfl rfl
  | stage n factory =>
    obtain ⟨_, _, _, h, _⟩ := r.stage_eq n factory
    exact same (congrArg Advance.registry h) rfl rfl
  | getOrCreate n factory =>
    rcases r.getOrCreate_eq n factory with ⟨_, _, h⟩ | ⟨_, _, _, _, _, _, h⟩
    · exact same (congrArg Advance.registry h) rfl rfl
    · exact same (congrArg Advance.registry h) rfl rfl
  | getOrCreateBare n factory =>
    rcases r.getOrCreate_eq n factory with ⟨_, _, h⟩ | ⟨_, _, _, _, _, _, h⟩
    · exact same (congrArg (Advance.registry ∘ Advance.bare) h) rfl rfl
    · exact same (congrArg (Advance.registry ∘ Advance.bare) h) rfl rfl
  | suppress faults =>
    obtain ⟨_, h⟩ := r.foldl_suppress_eq faults
    exact same h rfl rfl
  | depend n d =>
    exact ⟨congrArg (r.config, ·) (r.graph.canonical_depend n d), fun other => by cases other⟩
  | contain c p =>
    exact ⟨congrArg (r.config, ·) (r.graph.canonical_contain c p), fun other => by cases other⟩
  | _ => exact ⟨rfl, fun _ => rfl⟩

theorem settings_teardown (r : Registry) (agenda : Agenda) :
    (r.teardown agenda).registry.settings = r.settings := by
  unfold teardown
  split
  · rfl
  · rfl
  · split <;> rfl
  · dsimp only
    split <;> rfl
  · rfl
  · rfl
  · rfl

/-- The end of a callback changes neither the settings nor the graph. -/
theorem resume_keeps (r : Registry) (ended : Except Thrown Returned) (w : Waiting) :
    (r.resume ended w).registry.settings = r.settings ∧
      (r.resume ended w).registry.graph = r.graph := by
  cases w with
  | creating n outermost bare =>
    obtain ⟨_, _, h⟩ := r.resume_creating_eq n outermost bare ended
    rw [h]
    exact ⟨rfl, rfl⟩
  | promoting n f =>
    obtain ⟨_, _, _, h, _⟩ := r.madeEarly_eq n f ended
    rw [resume, h]
    exact ⟨rfl, rfl⟩
  | releasing n rest =>
    obtain ⟨_, _, h⟩ := r.released_eq n rest ended
    rw [resume, h]
    exact ⟨rfl, rfl⟩

/-- Of all requests only removing a bound name takes its object away, and none replaces it. -/
theorem find?_request (r : Registry) (q : Request) {n : Name} {x : Object}
    (bound : r.cache.find? n = some x) :
    (q = .remove n ∧ (r.request q).registry.cache.find? n = none) ∨
      (q ≠ .remove n ∧ (r.request q).registry.cache.find? n = some x) := by
  cases q with
  | register m object =>
    obtain ⟨_, _, _, h, hc⟩ := r.register_eq m object
    refine .inr ⟨by simp, ?_⟩
    rw [request, h]
    rcases hc with rfl | ⟨free, rfl⟩
    · exact bound
    · have other : m ≠ n := by
        intro hm
        subst hm
        simp [Cache.find?, free] at bound
      rw [Cache.find?_bind, if_neg other]
      exact bound
  | lookup m early =>
    refine .inr ⟨by simp, ?_⟩
    rcases r.lookup_eq m early with ⟨_, h⟩ | ⟨_, h⟩
    · rw [request, h]
      exact bound
    · rw [request, h]
      exact bound
  | stage m factory =>
    obtain ⟨_, _, _, h, hc⟩ := r.stage_eq m factory
    refine .inr ⟨by simp, ?_⟩
    rw [request, h]
    rcases hc with rfl | ⟨f, rfl⟩
    · exact bound
    · rw [Cache.find?_stage]
      exact bound
  | remove m =>
    by_cases hm : m = n
    · subst m
      exact .inl ⟨rfl, (r.cache.find?_remove n n).trans (if_pos rfl)⟩
    · refine .inr ⟨by simpa using hm, ?_⟩
      exact ((r.cache.find?_remove m n).trans (if_neg hm)).trans bound
  | getOrCreate m factory =>
    refine .inr ⟨by simp, ?_⟩
    rw [request, cache_getOrCreate]
    exact bound
  | getOrCreateBare m factory =>
    refine .inr ⟨by simp, ?_⟩
    rw [request, Advance.registry_bare, cache_getOrCreate]
    exact bound
  | suppress faults =>
    obtain ⟨_, h⟩ := r.foldl_suppress_eq faults
    refine .inr ⟨by simp, ?_⟩
    rw [request, h]
    exact bound
  | _ => exact .inr ⟨by simp, bound⟩

theorem find?_teardown (r : Registry) (agenda : Agenda) (n : Name) :
    (r.teardown agenda).registry.cache.find? n =
      if agenda.removes n then none else r.cache.find? n := by
  obtain ⟨items, visited⟩ := agenda
  cases items with
  | nil => rfl
  | cons item rest =>
    cases item with
    | root m => rfl
    | visit m =>
      unfold teardown Agenda.removes
      dsimp only
      by_cases hv : visited.contains m = true
      · simp [hv]
      · by_cases hm : m = n
        · subst m
          simp [hv, withdraw, Cache.find?_remove]
        · simp [hv, hm, withdraw, Cache.find?_remove]
    | release m handle => cases handle <;> rfl
    | inside m => rfl
    | forget m => rfl
    | finish => rfl

/-- The end of a factory binds what it made in any case, the end of another callback nothing. -/
theorem find?_resume (r : Registry) (ended : Except Thrown Returned) (w : Waiting) (n : Name) :
    (r.resume ended w).registry.cache.find? n = (w.makes ended n).or (r.cache.find? n) := by
  cases w with
  | creating m outermost bare =>
    obtain ⟨_, _, h⟩ := r.resume_creating_eq m outermost bare ended
    rw [h, Waiting.makes]
    cases made? ended with
    | none => simp
    | some o =>
      show (r.cache.bind m (some o)).find? n = _
      rw [Cache.find?_bind]
      split <;> rfl
  | promoting m f =>
    obtain ⟨_, _, _, h, same⟩ := r.madeEarly_eq m f ended
    rw [resume, h]
    exact same n
  | releasing m rest =>
    obtain ⟨_, _, h⟩ := r.released_eq m rest ended
    rw [resume, h]
    rfl

end Registry

end Singletons
