import Singletons.Proofs.Session.Trace
/-!
# What a step does with the cache

Whatever else happens in a step, it performs one operation of the cache at most. The look-up of a
name whose factory is staged performs two: one takes the factory out, and another one settles what
has become of the name when the factory has ended.
-/

namespace Singletons

inductive Cache.Access where
  | register (n : Name) (object : Option Object)
  /-- Binds an object that has been created. -/
  | bind (n : Name) (object : Object)
  /-- Looks for a name, and takes the staged factory out if it has to be called. -/
  | consult (n : Name) (early inCreation : Bool)
  /-- Goes on when a factory that was taken out has made an object, or none. -/
  | settle (n : Name) (factory : CallbackId) (made : Option Object)
  | stage (n : Name) (factory : Option CallbackId)
  | remove (n : Name)
  | clear
  | leaves

namespace Cache

def access (c : Cache) : Access → Cache
  | .register n object =>
    if object.isSome && c.bound[n]?.isNone then c.bind n object else c
  | .bind n object => c.bind n (some object)
  | .consult n early inCreation =>
    match c.lookup n early inCreation with
    | .object _ => c
    | .promote _ => c.unstage n
  | .settle n factory made => (c.settle n factory made).cache
  | .stage n factory =>
    match factory with
    | none => c
    | some f => if (c.find? n).isSome then c else c.stage n f
  | .remove n => c.remove n
  | .clear => c.clear
  | .leaves => c

end Cache

def Request.access (flags : Flags) : Request → Cache.Access
  | register n object => .register n object
  | lookup n early => .consult n early (flags.isInCreation n)
  | stage n factory => .stage n factory
  | remove n => .remove n
  | _ => .leaves

def Agenda.access (a : Agenda) : Cache.Access :=
  match a.items with
  | .visit n :: _ => if a.visited.contains n then .leaves else .remove n
  | .finish :: _ => .clear
  | _ => .leaves

def Waiting.access (ended : Except Thrown Returned) : Waiting → Cache.Access
  | creating n _ _ => (made? ended).elim .leaves (.bind n)
  | promoting n factory =>
    match ended with
    | .ok returned => .settle n factory returned.asObject
    | .error _ => .leaves
  | releasing _ _ => .leaves

/-- What the next step does with the cache. -/
def Session.access (s : Session) : Cache.Access :=
  match s.control with
  | .perform (.registry q) => q.access s.world.registry.flags
  | .teardown agenda => agenda.access
  | .ended (.call _ _ waiting) result => waiting.access result
  | _ => .leaves

namespace Registry

theorem cache_request (r : Registry) (q : Request) :
    (r.request q).registry.cache = r.cache.access (q.access r.flags) := by
  cases q with
  | register n object =>
    cases object with
    | none => rfl
    | some o =>
      simp only [request, register, Request.access, Cache.access, Option.isSome_some,
        Bool.true_and]
      cases r.cache.bound[n]? with
      | none => rfl
      | some present =>
        dsimp only
        split <;> rfl
  | lookup n early =>
    simp only [request, lookup, Request.access, Cache.access]
    cases r.cache.lookup n early (r.flags.isInCreation n) with
    | object o => rfl
    | promote f => rfl
  | stage n factory =>
    cases factory with
    | none => rfl
    | some f =>
      simp only [request, stage, Request.access, Cache.access]
      split <;> rfl
  | remove n => rfl
  | getOrCreate n factory => exact r.cache_getOrCreate n factory
  | getOrCreateBare n factory => exact r.cache_getOrCreate n factory
  | suppress faults =>
    obtain ⟨_, h⟩ := r.foldl_suppress_eq faults
    rw [request, h]
    rfl
  | _ => rfl

theorem cache_teardown (r : Registry) (agenda : Agenda) :
    (r.teardown agenda).registry.cache = r.cache.access agenda.access := by
  obtain ⟨items, visited⟩ := agenda
  cases items with
  | nil => rfl
  | cons item rest =>
    cases item with
    | visit n =>
      by_cases seen : visited.contains n = true
      · simp only [teardown, Agenda.access, seen, if_true]
        rfl
      · simp only [teardown, Agenda.access, seen, Bool.false_eq_true, if_false]
        rfl
    | release n handle => cases handle <;> rfl
    | _ => rfl

theorem cache_resume (r : Registry) (ended : Except Thrown Returned) (w : Waiting) :
    (r.resume ended w).registry.cache = r.cache.access (w.access ended) := by
  cases w with
  | creating n outermost bare =>
    obtain ⟨_, _, h⟩ := r.resume_creating_eq n outermost bare ended
    rw [h, Waiting.access]
    cases made? ended <;> rfl
  | promoting n factory =>
    cases ended with
    | error thrown => rfl
    | ok returned => rfl
  | releasing n rest =>
    obtain ⟨_, _, h⟩ := r.released_eq n rest ended
    rw [resume, h]
    rfl

end Registry

namespace Session

variable {env : Environment} {s t : Session}

theorem access_of_passes (h : s.control.passes) : s.access = .leaves := by
  rw [access]
  cases hc : s.control with
  | perform op =>
    rw [hc] at h
    cases op <;> first | rfl | cases h
  | teardown agenda =>
    rw [hc] at h
    cases h
  | ended cause result =>
    rw [hc] at h
    cases cause <;> first | rfl | cases h
  | answered reply => rfl

theorem cache_step (hp : s.Public) (hs : s.step env = some t) :
    t.world.registry.cache = s.world.registry.cache.access s.access := by
  obtain ⟨a, rest, move, hr, -⟩ := step_cases hs
  rw [hr]
  cases move with
  | pass hc =>
    rw [access_of_passes hc]
    rfl
  | request hc =>
    rw [access, hc]
    exact Registry.cache_request _ _
  | part hc => exact absurd (hp.operation _ hc) (by simp [Operation.isPublic])
  | teardown hc =>
    rw [access, hc]
    exact Registry.cache_teardown _ _
  | resume hc _ =>
    rw [access, hc]
    exact Registry.cache_resume _ _ _

end Session

namespace Life

variable {l : Life} {k : Nat}

/-- What the step that follows a point does with the cache; after the last one there is none. -/
def access (l : Life) (k : Nat) : Cache.Access := (l.after k).access

theorem cache_succ (l : Life) (k : Nat) : (l.after (k + 1)).world.registry.cache =
    (l.after k).world.registry.cache.access (l.access k) := by
  cases hs : (l.after k).step l.environment with
  | none =>
    rw [after_halted hs, access, Session.access_of_passes (Session.passes_of_halted hs)]
    rfl
  | some t =>
    rw [after_succ hs]
    exact Session.cache_step (l.reaches_after k).isPublic hs

end Life

end Singletons
