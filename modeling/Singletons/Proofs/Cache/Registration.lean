import Singletons.Proofs.Early.Calls
import Singletons.Proofs.Registry.Stability
import Singletons.Proofs.Session.Arrivals
/-!
# The order of registration

The registered names are listed in the order in which each of them last became registered. A name
that is registered keeps its place whatever becomes of its entry; to remove names moves no others.
-/

namespace Singletons

namespace Cache

namespace Access

/-- The name that is registered after an operation if it was not before. -/
def lists? : Access → Option Name
  | register n (some _) => some n
  | bind n _ => some n
  | stage n (some _) => some n
  | _ => none

def removes (n : Name) : Access → Bool
  | remove m => m = n
  | clear => true
  | _ => false

end Access

variable {c : Cache} {n : Name}

theorem registered_bind (c : Cache) (n : Name) (object : Option Object) :
    (c.bind n object).registered =
      if n ∈ c.registered then c.registered else c.registered ++ [n] :=
  registered_enlist _ n

theorem registered_stage (c : Cache) (n : Name) (f : CallbackId) :
    (c.stage n f).registered =
      if n ∈ c.registered then c.registered else c.registered ++ [n] :=
  registered_enlist _ n

theorem registered_settle (c : Cache) (n : Name) (f : CallbackId) (made : Option Object) :
    (c.settle n f made).cache.registered = c.registered := by
  have settles := c.settles n f made
  generalize c.settle n f made = settled at settles ⊢
  cases settles <;> rfl

theorem Sound.registered_register (sound : c.Sound) (n : Name) (o : Object) :
    (c.access (.register n (some o))).registered =
      if n ∈ c.registered then c.registered else c.registered ++ [n] := by
  rw [access]
  cases bound : c.bound[n]? with
  | none =>
    simp only [Option.isSome_some, Option.isNone_none, Bool.and_self, if_true]
    exact c.registered_bind n (some o)
  | some present =>
    have known : n ∈ c.registered := sound.registered n (by simp [bound])
    simp [known]

theorem Sound.mem_registered_of_find? (sound : c.Sound) (bound : (c.find? n).isSome) :
    n ∈ c.registered := by
  apply sound.registered
  left
  rw [find?] at bound
  cases entry : c.bound[n]? with
  | none => simp [entry] at bound
  | some object => rfl

theorem Sound.registered_stage (sound : c.Sound) (n : Name) (f : CallbackId) :
    (c.access (.stage n (some f))).registered =
      if n ∈ c.registered then c.registered else c.registered ++ [n] := by
  rw [access]
  split
  · rename_i bound
    rw [if_pos (sound.mem_registered_of_find? bound)]
  · exact c.registered_stage n f

/-- Whatever an operation does, the registered names stay in their order, and one that has not been
registered before comes last. -/
theorem Sound.lines (sound : c.Sound) (a : Access) :
    Lines (fun n => a.removes n) c.registered a.lists? (c.access a).registered := by
  cases a with
  | register n object =>
    cases object with
    | none => exact .unchanged fun _ => Bool.false_ne_true
    | some o =>
      rw [sound.registered_register]
      exact .enters fun _ => Bool.false_ne_true
  | bind n o =>
    rw [access, registered_bind]
    exact .enters fun _ => Bool.false_ne_true
  | consult n early inCreation =>
    have same : (c.access (.consult n early inCreation)).registered = c.registered := by
      rw [access]
      split <;> rfl
    rw [same]
    exact .unchanged fun _ => Bool.false_ne_true
  | settle n f made =>
    rw [access, registered_settle]
    exact .unchanged fun _ => Bool.false_ne_true
  | stage n factory =>
    cases factory with
    | none => exact .unchanged fun _ => Bool.false_ne_true
    | some f =>
      rw [sound.registered_stage]
      exact .enters fun _ => Bool.false_ne_true
  | remove n =>
    apply Lines.filter
    intro m
    simp [Access.removes, @eq_comm Name n]
  | clear =>
    apply Lines.passes
    · exact List.nil_sublist _
    · intro m
      simp [access, clear, Access.removes]
  | leaves => exact .unchanged fun _ => Bool.false_ne_true

end Cache

namespace Session

def names (s : Session) : List Name := s.world.registry.cache.registered

/-- The name that the next step registers if it is not registered yet: an object is registered or a
factory staged for it, or its creation completes with an object. -/
def lists? (s : Session) : Option Name :=
  match s.control with
  | .perform (.registry (.register n (some _))) => some n
  | .perform (.registry (.stage n (some _))) => some n
  | .ended (.call _ _ (.creating n _ _)) result => (made? result).map fun _ => n
  | _ => none

theorem lists?_access (s : Session) : s.access.lists? = s.lists? := by
  rw [access, lists?]
  cases s.control with
  | perform op =>
    cases op with
    | registry q =>
      cases q with
      | register n object => cases object <;> rfl
      | stage n factory => cases factory <;> rfl
      | _ => rfl
    | _ => rfl
  | teardown agenda =>
    rcases agenda.access_cases with leaves | clear | ⟨n, removes⟩
    · simp only [leaves, Cache.Access.lists?]
    · simp only [clear, Cache.Access.lists?]
    · simp only [removes, Cache.Access.lists?]
  | ended cause result =>
    cases cause with
    | call id m w =>
      cases w with
      | creating n outermost bare =>
        simp only [Waiting.access]
        cases made? result <;> rfl
      | promoting n f => cases result <;> rfl
      | releasing n rest => rfl
    | _ => rfl
  | answered reply => rfl

theorem removes_access (s : Session) (n : Name) : s.access.removes n ↔ s.Removes n := by
  rw [access, Removes]
  cases s.control with
  | perform op =>
    cases op with
    | registry q =>
      cases q with
      | remove m => exact decide_eq_true_iff
      | _ => exact iff_of_false Bool.false_ne_true id
    | _ => exact iff_of_false Bool.false_ne_true id
  | teardown agenda =>
    obtain ⟨items, visited⟩ := agenda
    cases items with
    | nil => rfl
    | cons item rest =>
      cases item with
      | visit m =>
        simp only [Agenda.access, Agenda.removes]
        cases visited.contains m <;> simp [Cache.Access.removes]
      | _ => rfl
  | ended cause result =>
    cases cause with
    | call id m w =>
      rcases w.access_cases result with leaves | ⟨m, o, binds⟩ | ⟨m, f, returned, -, -, settles⟩
      · simp [leaves, Cache.Access.removes]
      · simp [binds, Cache.Access.removes]
      · simp [settles, Cache.Access.removes]
    | _ => exact iff_of_false Bool.false_ne_true id
  | answered reply => exact iff_of_false Bool.false_ne_true id

end Session

namespace Life

variable {l : Life} {k : Nat}

theorem names_succ (l : Life) (k : Nat) : Lines (fun n => (l.after k).Removes n)
    (l.after k).names (l.after k).lists? (l.after (k + 1)).names := by
  have lines := (l.sound_cache k).lines (l.access k)
  rw [← l.cache_succ k, Life.access, Session.lists?_access] at lines
  simp only [Session.removes_access] at lines
  exact lines

/-- At every point of a life the registry lists the names that are registered, each once, in the
order in which they last became registered, just as the list of the tiers and its index have them.
What the next step makes of the list is told by the name that it registers and those that it
removes. -/
theorem names_in_order (l : Life) (k : Nat) :
    (l.after k).world.registry.request .names =
        (l.after k).world.registry.answer (.names (l.after k).names) ∧
      l.ByArrival Session.lists? Session.Removes k (l.after k).names ∧
      (l.tiers k).registered = (l.after k).names ∧
      (∀ n, n ∈ (l.after k).names ↔ n ∈ (l.tiers k).index) ∧
      Lines (fun n => (l.after k).Removes n) (l.after k).names (l.after k).lists?
        (l.after (k + 1)).names := by
  have mirrors := l.mirrors_tiers k
  refine ⟨rfl, ?_, mirrors.registered.symm, fun n => ?_, l.names_succ k⟩
  · apply l.byArrival_of_lines fun k => (l.after k).names
    · show l.start.world.registry.cache.registered = []
      rw [registry_start]
      rfl
    · exact l.names_succ
  · rw [Session.names, mirrors.registered]
    exact (l.sound_tiers k).listed.same n

/-- A factory is staged for a name that is bound later, and another name is removed and comes
back. -/
def returning : Life := plain
  (.perform (.registry (.register "a" (some "x"))) fun _ =>
    .perform (.registry (.stage "b" (some "f"))) fun _ =>
    .perform (.registry (.register "c" (some "y"))) fun _ =>
    .perform (.registry (.remove "a")) fun _ =>
    .perform (.registry (.register "a" (some "z"))) fun _ =>
    .perform (.registry (.register "b" (some "o"))) fun _ => .finish (.ok .nothing))
  (fun _ => .finish (.ok .nothing))
  ⟨rfl, fun _ => ⟨rfl, fun _ => ⟨rfl, fun _ => ⟨rfl, fun _ => ⟨rfl, fun _ =>
    ⟨rfl, fun _ => trivial⟩⟩⟩⟩⟩⟩
  fun _ => trivial

example : (returning.after 11).names = ["b", "c", "a"] := rfl

end Life

end Singletons
