import Singletons.Proofs.Handles.Clearing
import Singletons.Proofs.Session.Arrivals
/-!
# The order of disposal

The names that have a handle are listed in the order in which each of them last got one while it had
none. Where no name is linked to another one and the release callbacks leave the registry alone, the
destruction of all names calls their handles in just the reverse of that order.
-/

namespace Singletons

/-- Handles by name, and a list of the names, which are kept side by side. -/
structure Roster where
  handles : NameMap Handle := ∅
  order : List Name := []

namespace Roster

def insert (r : Roster) (n : Name) (handle : Handle) : Roster where
  handles := r.handles.insert n handle
  order := if r.handles.contains n then r.order else r.order ++ [n]

def take (r : Roster) (n : Name) : Roster :=
  if r.handles.contains n then
    { handles := r.handles.erase n, order := r.order.filter (· != n) }
  else r

def deal (r : Roster) : Dealing → Roster
  | .binds n handle => r.insert n handle
  | .takes n => r.take n
  | .calls _ _ => r
  | .leaves => r

/-- The handles that are bound, and the order of their names, are what the two containers hold. -/
structure Mirrors (r : Roster) (d : Disposables) : Prop where
  handles : ∀ n, r.handles[n]? = d.handle? n
  order : r.order = d.names

end Roster

namespace Disposables

theorem mem_names_iff (d : Disposables) (n : Name) : n ∈ d.names ↔ (d.handle? n).isSome := by
  constructor
  · intro listed
    apply Classical.byContradiction
    intro unbound
    obtain ⟨entry, hm, rfl⟩ := List.mem_map.mp listed
    rw [Bool.not_eq_true, Option.isSome_eq_false_iff, Option.isNone_iff_eq_none, handle?,
      List.lookup_eq_none_iff] at unbound
    have other := unbound entry hm
    simp at other
  · intro bound
    obtain ⟨handle, h⟩ := Option.isSome_iff_exists.mp bound
    exact mem_names_of_handle? h

end Disposables

namespace Roster.Mirrors

variable {r : Roster} {d : Disposables}

theorem contains (h : r.Mirrors d) (n : Name) : r.handles.contains n ↔ n ∈ d.names := by
  rw [d.mem_names_iff, Std.ExtTreeMap.contains_eq_isSome_getElem?, h.handles]

theorem insert (h : r.Mirrors d) (n : Name) (handle : Handle) :
    (r.insert n handle).Mirrors (d.insert n handle) := by
  refine ⟨fun m => ?_, ?_⟩
  · rw [Roster.insert, NameMap.getElem?_insert, Disposables.handle?_insert, h.handles]
    simp only [@eq_comm Name n]
  · rw [Roster.insert, Disposables.names_insert, h.order]
    simp only [h.contains]

theorem take (h : r.Mirrors d) (n : Name) : (r.take n).Mirrors (d.erase n) := by
  rw [Roster.take]
  by_cases there : n ∈ d.names
  · rw [if_pos ((h.contains n).mpr there)]
    refine ⟨fun m => ?_, ?_⟩
    · rw [NameMap.getElem?_erase, Disposables.handle?_erase, h.handles]
      simp only [@eq_comm Name n]
    · rw [Disposables.names_erase, h.order]
      apply List.filter_congr
      intro m _
      rw [Bool.eq_iff_iff, bne_iff_ne, decide_eq_true_eq]
  · rw [if_neg (mt (h.contains n).mp there)]
    refine ⟨fun m => ?_, ?_⟩
    · rw [Disposables.handle?_erase, h.handles]
      split
      · rename_i same
        subst m
        have unbound := mt (d.mem_names_iff n).mpr there
        exact Option.not_isSome_iff_eq_none.mp unbound
      · rfl
    · rw [Disposables.names_erase, h.order]
      symm
      apply List.filter_eq_self.mpr
      intro m hm
      rw [decide_eq_true_eq]
      rintro rfl
      exact there hm

theorem deal (h : r.Mirrors d) (x : Dealing) : (r.deal x).Mirrors (x.bind d) := by
  cases x with
  | binds n handle => exact h.insert n handle
  | takes n => exact h.take n
  | calls n handle => exact h
  | leaves => exact h

end Roster.Mirrors

namespace Dealing

/-- The name that is given a handle. -/
def binds? : Dealing → Option Name
  | binds n _ => some n
  | _ => none

/-- A name that gets a handle while it has none comes last, and a name that is taken makes no others
change places. -/
theorem lines (d : Dealing) (before : Disposables) :
    Lines (fun n => d = .takes n) before.names d.binds? (d.bind before).names := by
  cases d with
  | binds n handle =>
    rw [bind, Disposables.names_insert]
    apply Lines.enters
    intro m h
    cases h
  | takes n =>
    rw [bind, Disposables.names_erase]
    apply Lines.filter
    intro m
    simp [@eq_comm Name n]
  | calls n handle =>
    apply Lines.unchanged
    intro m h
    cases h
  | leaves =>
    apply Lines.unchanged
    intro m h
    cases h

theorem handle?_bind (d : Dealing) (before : Disposables) (n : Name) (handle : Handle) :
    (d.bind before).handle? n = some handle ↔
      d = .binds n handle ∨ (before.handle? n = some handle ∧ ¬ d.Touches n) := by
  cases d with
  | binds m own =>
    rw [bind, Disposables.handle?_insert]
    by_cases same : n = m
    · subst m
      simp [Touches]
    · simp [Touches, same, Ne.symm same]
  | takes m =>
    rw [bind, Disposables.handle?_erase]
    by_cases same : n = m
    · subst m
      simp [Touches]
    · simp [Touches, same, Ne.symm same]
  | calls m own => simp [bind, Touches]
  | leaves => simp [bind, Touches]

end Dealing

namespace Graph

/-- No name has a dependent, and none contains another one. -/
def Unlinked (g : Graph) : Prop := ∀ n, g.dependentsOf n = [] ∧ g.containedIn n = []

variable {g : Graph}

theorem Unlinked.detachDependents (h : g.Unlinked) (n : Name) :
    (g.detachDependents n).Unlinked := by
  intro m
  refine ⟨?_, (h m).2⟩
  rw [List.eq_nil_iff_forall_not_mem]
  intro k
  rw [mem_dependentsOf_detachDependents, (h m).1]
  simp

theorem Unlinked.detachContained (h : g.Unlinked) (n : Name) : (g.detachContained n).Unlinked := by
  intro m
  refine ⟨(h m).1, ?_⟩
  show members (g.contained.erase n) m = []
  rw [members_erase, show members g.contained m = [] from (h m).2]
  simp

theorem Unlinked.forget (h : g.Unlinked) (n : Name) :
    ((g.scrub n).removeDependencies n).Unlinked := by
  intro m
  refine ⟨?_, (h m).2⟩
  show (g.scrub n).dependentsOf m = []
  rw [List.eq_nil_iff_forall_not_mem]
  intro k
  rw [mem_dependentsOf_scrub, (h m).1]
  simp

end Graph

namespace Dismantling

variable {r : Registry}

/-- A name without links is destroyed by taking its handle and calling it, and nothing else. -/
theorem comes_unlinked (unlinked : r.graph.Unlinked) (n : Name) (rest : List Agenda.Item)
    (visited : NameSet) (before : List (Name × Handle)) :
    ∃ r' visited', Comes ⟨r, .root n :: rest, visited, before⟩
        ⟨r', rest, visited', before ++ r.disposables.held n⟩ ∧
      r'.graph.Unlinked ∧ r'.disposables = r.disposables.erase n := by
  let first := r.withdraw n
  let second : Registry := { first with graph := first.graph.detachContained n }
  let third : Registry := { second with graph := (second.graph.scrub n).removeDependencies n }
  have begun : first.graph.Unlinked := unlinked.detachDependents n
  have opening : r.opening n =
      [.release n ((r.disposables.handle? n).getD .null), .inside n, .forget n] := by
    rw [Registry.opening, (unlinked n).1]
    rfl
  have contents : first.graph.containedIn n = [] := (begun n).2
  let items : List Agenda.Item := .inside n :: .forget n :: rest
  have visits : Step ⟨r, .visit n :: rest, ∅, before⟩ ⟨first,
      .release n ((r.disposables.handle? n).getD .null) :: items, insert n ∅, before⟩ := by
    have visit : Step ⟨r, .visit n :: rest, ∅, before⟩ _ := .visit Std.ExtTreeSet.not_mem_empty
    rwa [opening] at visit
  have empties : Step ⟨first, items, insert n ∅, before ++ r.disposables.held n⟩
      ⟨second, .forget n :: rest, insert n ∅, before ++ r.disposables.held n⟩ := by
    have inside : Step ⟨first, items, insert n ∅, before ++ r.disposables.held n⟩ _ := .inside
    rwa [contents] at inside
  refine ⟨third, insert n ∅, ?_, (begun.detachContained n).forget n, rfl⟩
  calc Comes ⟨r, .root n :: rest, visited, before⟩ ⟨r, .visit n :: rest, ∅, before⟩ := .single .root
    Comes _ ⟨first, _ :: items, insert n ∅, before⟩ := .single visits
    Comes _ ⟨first, items, insert n ∅, before ++ r.disposables.held n⟩ := .single .release
    Comes _ ⟨second, .forget n :: rest, insert n ∅, before ++ r.disposables.held n⟩ :=
      .single empties
    Comes _ ⟨third, rest, insert n ∅, before ++ r.disposables.held n⟩ := .single .forget

/-- Names without links are destroyed one after another, each with the handle that it has. -/
theorem comes_unlinked_all (unlinked : r.graph.Unlinked) {roots : List Name}
    (distinct : roots.Nodup) (rest : List Agenda.Item) (visited : NameSet)
    (before : List (Name × Handle)) :
    ∃ r' visited', Comes ⟨r, roots.map .root ++ rest, visited, before⟩
      ⟨r', rest, visited', before ++ roots.flatMap r.disposables.held⟩ := by
  induction roots generalizing r visited before with
  | nil =>
    refine ⟨r, visited, ?_⟩
    rw [List.flatMap_nil, List.append_nil]
    exact .refl
  | cons n roots ih =>
    obtain ⟨other, distinct⟩ := List.nodup_cons.mp distinct
    obtain ⟨r₁, visited₁, first, unlinked₁, taken⟩ :=
      comes_unlinked unlinked n (roots.map .root ++ rest) visited before
    obtain ⟨r₂, visited₂, others⟩ :=
      ih unlinked₁ distinct visited₁ (before ++ r.disposables.held n)
    have same : roots.flatMap r₁.disposables.held = roots.flatMap r.disposables.held := by
      apply List.flatMap_congr
      intro m hm
      rw [taken, Disposables.held_erase, if_neg]
      rintro rfl
      exact other hm
    rw [same, List.append_assoc] at others
    exact ⟨r₂, visited₂, first.trans others⟩

end Dismantling

namespace Session

/-- The name that the next step gives a handle. -/
def binds? (s : Session) : Option Name := s.control.dealing.binds?

/-- The next step is that of a teardown that takes whatever handle the name has. -/
def Takes (s : Session) (n : Name) : Prop := s.control.dealing = .takes n

/-- Where no name is linked to another one, the destruction of all names calls the handles in the
reverse of their order. -/
theorem destroys_unlinked {env : Environment} {w : World} (quiet : env.Quiet w.registry)
    (unlinked : w.registry.graph.Unlinked) (distinct : w.registry.disposables.names.Nodup) :
    ∃ w', Destroys env w .destroyAll w'
      (w.registry.disposables.names.reverse.flatMap w.registry.disposables.held) := by
  let r : Registry := { w.registry with destroying := true }
  let roots := r.disposables.names.reverse
  have distinct : roots.Nodup := List.nodup_reverse.mpr distinct
  obtain ⟨r', visited, comes⟩ :=
    Dismantling.comes_unlinked_all (r := r) unlinked distinct [.finish] ∅ []
  have calm : Dismantling.Quiet env ⟨r, roots.map .root ++ [.finish], ∅, []⟩ :=
    ⟨quiet, by simp⟩
  have starts : w.registry.request .destroyAll =
      { registry := r
        progress := .tearing ⟨roots.map .root ++ [.finish], ∅⟩
        notes := w.registry.destroyAll.notes } := rfl
  obtain ⟨w', destroys, -⟩ := destroys_of_comes starts rfl rfl calm (comes.tail .finish) rfl
  exact ⟨w', destroys⟩

end Session

namespace Life

variable {l : Life} {k : Nat}

/-- The two containers at a point of a life, after all that its steps have done with handles. -/
def roster (l : Life) : Nat → Roster
  | 0 => {}
  | k + 1 => (l.roster k).deal (l.dealing k)

def disposables (l : Life) (k : Nat) : Disposables := (l.after k).world.registry.disposables

theorem disposables_zero (l : Life) : l.disposables 0 = {} := by
  show l.start.world.registry.disposables = {}
  rw [registry_start]
  rfl

theorem disposables_succ (l : Life) (k : Nat) :
    l.disposables (k + 1) = (l.dealing k).bind (l.disposables k) :=
  (l.deals k).bound

theorem mirrors_roster (l : Life) (k : Nat) : (l.roster k).Mirrors (l.disposables k) := by
  induction k with
  | zero =>
    rw [disposables_zero]
    exact ⟨fun n => by simp [roster, Disposables.handle?], rfl⟩
  | succ k ih =>
    rw [disposables_succ]
    exact ih.deal (l.dealing k)

theorem disposables_by_arrival (l : Life) (k : Nat) :
    l.ByArrival Session.binds? Session.Takes k (l.disposables k).names := by
  apply l.byArrival_of_lines fun k => (l.disposables k).names
  · rw [disposables_zero]
    rfl
  · intro k
    rw [disposables_succ]
    exact (l.dealing k).lines (l.disposables k)

/-- The handle is the last one that was registered for the name before the point, and has not been
taken since. -/
def Bound (l : Life) (n : Name) (handle : Handle) (k : Nat) : Prop :=
  l.Raised (fun s => s.control = .perform (.registry (.disposable n handle)))
    (fun s => s.control.dealing.Touches n) k

theorem handle?_iff_bound (l : Life) (n : Name) (handle : Handle) (k : Nat) :
    (l.disposables k).handle? n = some handle ↔ l.Bound n handle k := by
  induction k with
  | zero =>
    rw [disposables_zero]
    exact iff_of_false (fun h => by cases h) not_raised_zero
  | succ k ih =>
    rw [disposables_succ, Dealing.handle?_bind, ih, Bound, Bound, raised_succ,
      ← Control.dealing_eq_binds]
    rfl

/-- At every point of a life the order of disposal has the names with a handle, each once, in the
order in which they last got one while they had none, and it fits the handles that are kept beside
it. The handle of a name is the one last registered for it. If no name is linked to another one, and
the release callbacks leave the registry alone, the destruction of all names calls these handles,
each once, in the reverse of that order, and no others. -/
theorem disposal_in_order (l : Life) (k : Nat) :
    (l.roster k).order = (l.disposables k).names ∧
    (∀ n, (l.roster k).handles[n]? = (l.disposables k).handle? n) ∧
    (∀ n, n ∈ (l.disposables k).names ↔ ((l.disposables k).handle? n).isSome) ∧
    l.ByArrival Session.binds? Session.Takes k (l.disposables k).names ∧
    (∀ n handle, (l.disposables k).handle? n = some handle ↔ l.Bound n handle k) ∧
    ((l.after k).world.registry.graph.Unlinked →
      l.environment.Quiet (l.after k).world.registry →
      ∃ w', Session.Destroys l.environment (l.after k).world .destroyAll w'
        ((l.disposables k).names.reverse.flatMap (l.disposables k).held)) := by
  have mirrors := l.mirrors_roster k
  have order := l.disposables_by_arrival k
  refine ⟨mirrors.order, mirrors.handles, (l.disposables k).mem_names_iff, order,
    fun n handle => l.handle?_iff_bound n handle k, fun unlinked quiet => ?_⟩
  exact Session.destroys_unlinked quiet unlinked order.nodup

/-- Of three names, the first one is destroyed and gets another handle, the second one has a null
handle, and the handle of the third one is replaced. -/
def reordered : Life := plain
  (.perform (.registry (.disposable "a" (.callback "f"))) fun _ =>
    .perform (.registry (.disposable "b" .null)) fun _ =>
    .perform (.registry (.disposable "c" (.callback "g"))) fun _ =>
    .perform (.registry (.destroy "a")) fun _ =>
    .perform (.registry (.disposable "a" (.callback "h"))) fun _ =>
    .perform (.registry (.disposable "c" (.callback "i"))) fun _ =>
    .perform (.registry .destroyAll) fun _ => .finish (.ok .nothing))
  (fun _ => .finish (.error (.foreign 0)))
  ⟨rfl, fun _ => ⟨rfl, fun _ => ⟨rfl, fun _ => ⟨rfl, fun _ => ⟨rfl, fun _ => ⟨rfl, fun _ =>
    ⟨rfl, fun _ => trivial⟩⟩⟩⟩⟩⟩⟩
  fun _ => trivial

theorem disposal_reordered :
    reordered.ByArrival Session.binds? Session.Takes 19 ["b", "c", "a"] ∧
    (reordered.after 19).world.registry.graph.Unlinked ∧
    reordered.environment.Quiet (reordered.after 19).world.registry ∧
    ∃ w', Session.Destroys reordered.environment (reordered.after 19).world .destroyAll w'
      [("a", .callback "h"), ("c", .callback "i")] := by
  have unlinked : (reordered.after 19).world.registry.graph.Unlinked := by
    have dependents : (reordered.after 19).world.registry.graph.dependents = ∅ := rfl
    have contained : (reordered.after 19).world.registry.graph.contained = ∅ := rfl
    intro n
    rw [Graph.dependentsOf, Graph.containedIn, dependents, contained]
    have none := Graph.members_of_not_mem (Std.ExtTreeMap.not_mem_empty (k := n))
    exact ⟨none, none⟩
  have quiet : reordered.environment.Quiet (reordered.after 19).world.registry :=
    fun _ _ _ _ => trivial
  obtain ⟨-, -, -, order, -, destroys⟩ := reordered.disposal_in_order 19
  exact ⟨order, unlinked, quiet, destroys unlinked quiet⟩

end Life

end Singletons
