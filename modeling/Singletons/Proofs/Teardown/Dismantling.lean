import Mathlib.Algebra.Order.BigOperators.Group.Finset
import Mathlib.Logic.Relation
import Singletons.Registry.Teardown
/-!
# Teardowns that nobody reaches into

Where no callback reaches back into the registry, a teardown is determined by the registry and the
agenda. Every edge is detached before it is followed, so it ends whatever the graph looks like.
-/

namespace Singletons

namespace Handle

/-- What calling a handle to release a name amounts to. -/
def calls (n : Name) : Handle → List (Name × Handle)
  | null => []
  | idle => [(n, idle)]
  | callback id => [(n, callback id)]

def callback? : Handle → Option CallbackId
  | null => none
  | idle => none
  | callback id => some id

/-- The callbacks that are called when these handles are released. -/
def callsIn (released : List (Name × Handle)) : List (Name × CallbackId) :=
  released.filterMap fun (n, handle) => handle.callback?.map (n, ·)

end Handle

def Note.release? : Note → Option (Name × Handle)
  | message _ _ _ => none
  | released n handle => some (n, handle)

/-- What there is to do for a name that is visited for the first time. -/
def Registry.opening (r : Registry) (n : Name) : List Agenda.Item :=
  (r.graph.dependentsOf n).map .visit ++
    [.release n ((r.disposables.handle? n).getD .null), .inside n, .forget n]

theorem Registry.visit_mem_opening {r : Registry} {n m : Name} :
    .visit m ∈ r.opening n ↔ m ∈ r.graph.dependentsOf n := by
  simp [opening]

theorem Registry.release_mem_opening {r : Registry} {n m : Name} {handle : Handle} :
    .release m handle ∈ r.opening n ↔
      m = n ∧ handle = (r.disposables.handle? n).getD .null := by
  simp [opening]

/-- A point of a teardown, with the handles that have been released so far, the oldest first. -/
structure Dismantling where
  registry : Registry
  items : List Agenda.Item
  visited : NameSet := ∅
  released : List (Name × Handle) := []

namespace Dismantling

/-- What a step of a teardown does, its callback left aside. -/
inductive Step : Dismantling → Dismantling → Prop
  | root {r n rest visited released} :
    Step ⟨r, .root n :: rest, visited, released⟩ ⟨r, .visit n :: rest, ∅, released⟩
  | revisit {r n rest visited released} (seen : n ∈ visited) :
    Step ⟨r, .visit n :: rest, visited, released⟩ ⟨r, rest, visited, released⟩
  | visit {r n rest visited released} (fresh : n ∉ visited) :
    Step ⟨r, .visit n :: rest, visited, released⟩
      ⟨r.withdraw n, r.opening n ++ rest, visited.insert n, released⟩
  | release {r n handle rest visited released} :
    Step ⟨r, .release n handle :: rest, visited, released⟩
      ⟨r, rest, visited, released ++ handle.calls n⟩
  | inside {r n rest visited released} :
    Step ⟨r, .inside n :: rest, visited, released⟩
      ⟨{ r with graph := r.graph.detachContained n },
        (r.graph.containedIn n).map .visit ++ rest, visited, released⟩
  | forget {r n rest visited released} :
    Step ⟨r, .forget n :: rest, visited, released⟩
      ⟨{ r with graph := (r.graph.scrub n).removeDependencies n }, rest, visited, released⟩
  | finish {r rest visited released} :
    Step ⟨r, .finish :: rest, visited, released⟩
      ⟨{ r with graph := r.graph.clear, cache := r.cache.clear, destroying := false }, rest,
        visited, released⟩

abbrev Comes : Dismantling → Dismantling → Prop := Relation.ReflTransGen Step

theorem exists_step {d : Dismantling} (h : d.items ≠ []) : ∃ e, Step d e := by
  obtain ⟨r, items, visited, released⟩ := d
  cases items with
  | nil => exact absurd rfl h
  | cons item rest =>
    cases item with
    | root n => exact ⟨_, .root⟩
    | visit n =>
      by_cases seen : n ∈ visited
      · exact ⟨_, .revisit seen⟩
      · exact ⟨_, .visit seen⟩
    | release n handle => exact ⟨_, .release⟩
    | inside n => exact ⟨_, .inside⟩
    | forget n => exact ⟨_, .forget⟩
    | finish => exact ⟨_, .finish⟩

/-- A teardown has one way to go on. -/
theorem Step.unique {d e f : Dismantling} (h : Step d e) (k : Step d f) : e = f := by
  cases h with
  | root => cases k; rfl
  | revisit seen =>
    cases k with
    | revisit => rfl
    | visit fresh => exact absurd seen fresh
  | visit fresh =>
    cases k with
    | revisit seen => exact absurd seen fresh
    | visit => rfl
  | release => cases k; rfl
  | inside => cases k; rfl
  | forget => cases k; rfl
  | finish => cases k; rfl

/-- What a teardown comes to in the end is determined. -/
theorem Comes.done_unique {d e f : Dismantling} (h : Comes d e) (k : Comes d f)
    (he : e.items = []) (hf : f.items = []) : e = f := by
  have stays {x y : Dismantling} (done : x.items = []) (hxy : Comes x y) : x = y := by
    rcases hxy.cases_head with same | ⟨z, step, -⟩
    · exact same
    · cases step <;> cases done
  have unique : Relator.RightUnique Step := fun _ _ _ => Step.unique
  rcases h.total_of_right_unique unique k with hef | hfe
  · exact stays he hef
  · exact (stays hf hfe).symm

/-- A step is what the teardown of the registry does, up to the callback that it may wait for. -/
theorem Step.teardown {d e : Dismantling} (h : Step d e) :
    ∃ progress notes, d.registry.teardown ⟨d.items, d.visited⟩ =
        { registry := e.registry, progress, notes } ∧
      e.released = d.released ++ notes.filterMap Note.release? ∧
      (progress = .tearing ⟨e.items, e.visited⟩ ∧
          Handle.callsIn (notes.filterMap Note.release?) = [] ∨
        ∃ n id, d.items = .release n (.callback id) :: e.items ∧
          progress = .calling id (.releasing n ⟨e.items, e.visited⟩) ∧
          notes.filterMap Note.release? = [(n, .callback id)]) := by
  cases h with
  | root => exact ⟨_, _, rfl, (List.append_nil _).symm, .inl ⟨rfl, rfl⟩⟩
  | @revisit r n rest visited released seen =>
    have done : r.teardown ⟨.visit n :: rest, visited⟩ =
        { registry := r, progress := .tearing ⟨rest, visited⟩ } := by
      simp [Registry.teardown, seen]
    exact ⟨_, _, done, (List.append_nil _).symm, .inl ⟨rfl, rfl⟩⟩
  | @visit r n rest visited released fresh =>
    obtain ⟨notes, opened, silent⟩ : ∃ notes, r.teardown ⟨.visit n :: rest, visited⟩ =
        { registry := r.withdraw n
          progress := .tearing ⟨r.opening n ++ rest, visited.insert n⟩, notes } ∧
        notes.filterMap Note.release? = [] := by
      simp only [Registry.teardown, Std.ExtTreeSet.contains_iff_mem, fresh, if_false,
        Registry.opening, List.append_assoc, List.cons_append, List.nil_append]
      refine ⟨_, rfl, ?_⟩
      split <;> rfl
    refine ⟨_, _, opened, ?_, .inl ⟨rfl, ?_⟩⟩
    · rw [silent, List.append_nil]
    · rw [silent]
      rfl
  | @release r n handle =>
    cases handle with
    | null => exact ⟨_, _, rfl, rfl, .inl ⟨rfl, rfl⟩⟩
    | idle => exact ⟨_, _, rfl, rfl, .inl ⟨rfl, rfl⟩⟩
    | callback id => exact ⟨_, _, rfl, rfl, .inr ⟨n, id, rfl, rfl, rfl⟩⟩
  | inside => exact ⟨_, _, rfl, (List.append_nil _).symm, .inl ⟨rfl, rfl⟩⟩
  | forget => exact ⟨_, _, rfl, (List.append_nil _).symm, .inl ⟨rfl, rfl⟩⟩
  | finish => exact ⟨_, _, rfl, (List.append_nil _).symm, .inl ⟨rfl, rfl⟩⟩

theorem Step.config {d e : Dismantling} (h : Step d e) : e.registry.config = d.registry.config := by
  cases h <;> rfl

/-- A step does not look at what comes later, nor at what was released before. -/
theorem Step.within {d e : Dismantling} (h : Step d e) (rest : List Agenda.Item)
    (before : List (Name × Handle)) :
    Step ⟨d.registry, d.items ++ rest, d.visited, before ++ d.released⟩
      ⟨e.registry, e.items ++ rest, e.visited, before ++ e.released⟩ := by
  cases h with
  | root => exact .root
  | revisit seen => exact .revisit seen
  | visit fresh =>
    rw [List.append_assoc]
    exact .visit fresh
  | release =>
    rw [← List.append_assoc]
    exact .release
  | inside =>
    rw [List.append_assoc]
    exact .inside
  | forget => exact .forget
  | finish => exact .finish

theorem Comes.within {d e : Dismantling} (h : Comes d e) (rest : List Agenda.Item)
    (before : List (Name × Handle)) :
    Comes ⟨d.registry, d.items ++ rest, d.visited, before ++ d.released⟩
      ⟨e.registry, e.items ++ rest, e.visited, before ++ e.released⟩ := by
  induction h with
  | refl => exact .refl
  | tail _ hs ih => exact ih.tail (hs.within rest before)

end Dismantling

namespace Graph

/-- How many members are filed in an index. -/
def edges (index : NameMap NameSet) : Nat :=
  ∑ n ∈ index.keys.toFinset, (members index n).length

theorem members_of_not_mem {index : NameMap NameSet} {n : Name} (h : n ∉ index) :
    members index n = [] := by
  rw [members, Std.ExtTreeMap.getD_eq_fallback h]
  rfl

theorem nodup_members (index : NameMap NameSet) (n : Name) : (members index n).Nodup := by
  have distinct := (index.getD n ∅).distinct_toList
  simpa [members, List.Nodup] using distinct

theorem edges_erase (index : NameMap NameSet) (n : Name) :
    edges (index.erase n) + (members index n).length = edges index := by
  have keys : (index.erase n).keys.toFinset = index.keys.toFinset.erase n := by
    ext k
    simp only [List.mem_toFinset, Std.ExtTreeMap.mem_keys, Std.ExtTreeMap.mem_erase,
      Finset.mem_erase, ne_eq, Std.compare_eq_iff_eq, @eq_comm Name k]
  have same : edges (index.erase n) =
      ∑ k ∈ index.keys.toFinset.erase n, (members index k).length := by
    rw [edges, keys]
    refine Finset.sum_congr rfl fun k hk => ?_
    rw [members, NameMap.getD_erase, if_neg (Finset.ne_of_mem_erase hk).symm, members]
  rw [same, edges]
  by_cases h : n ∈ index
  · exact Finset.sum_erase_add _ _ (by simpa [Std.ExtTreeMap.mem_keys] using h)
  · rw [Finset.sum_erase _ (by rw [members_of_not_mem h]; rfl), members_of_not_mem h]
    rfl

theorem edges_scrub_le (g : Graph) (n : Name) :
    edges (g.scrub n).dependents ≤ edges g.dependents := by
  have fewer : ∀ k, (members (g.scrub n).dependents k).length ≤
      (members g.dependents k).length := by
    intro k
    refine List.Nodup.length_le_of_subset (nodup_members _ k) fun m hm => ?_
    exact ((g.mem_dependentsOf_scrub n k m).mp hm).2
  have keys : (g.scrub n).dependents.keys.toFinset ⊆ g.dependents.keys.toFinset := by
    intro k hk
    rw [List.mem_toFinset, Std.ExtTreeMap.mem_keys] at hk ⊢
    exact Std.ExtTreeMap.mem_of_mem_filterMap hk
  calc edges (g.scrub n).dependents
      ≤ ∑ k ∈ (g.scrub n).dependents.keys.toFinset, (members g.dependents k).length :=
        Finset.sum_le_sum fun k _ => fewer k
    _ ≤ edges g.dependents := Finset.sum_le_sum_of_subset keys

end Graph

/-- What an item costs; visiting a name may not cost more than an edge that leads to it. -/
def Agenda.Item.cost : Agenda.Item → Nat
  | root _ => 5
  | visit _ => 4
  | release _ _ => 1
  | inside _ => 1
  | forget _ => 1
  | finish => 1

/-- What all the items of an agenda cost. -/
def Agenda.cost : List Agenda.Item → Nat
  | [] => 0
  | item :: rest => item.cost + cost rest

namespace Agenda

theorem cost_append (items rest : List Item) : cost (items ++ rest) = cost items + cost rest := by
  induction items with
  | nil => exact (Nat.zero_add _).symm
  | cons item items ih => rw [List.cons_append, cost, cost, ih, Nat.add_assoc]

theorem cost_visits (names : List Name) : cost (names.map .visit) = 4 * names.length := by
  induction names with
  | nil => rfl
  | cons n names ih =>
    rw [List.map_cons, cost, ih, Item.cost, List.length_cons, Nat.mul_add_one, Nat.add_comm]

theorem cost_opening (r : Registry) (n : Name) :
    cost (r.opening n) = 4 * (r.graph.dependentsOf n).length + 3 := by
  rw [Registry.opening, cost_append, cost_visits]
  rfl

end Agenda

namespace Dismantling

/-- A bound for the steps that are left. -/
def cost (d : Dismantling) : Nat :=
  5 * (Graph.edges d.registry.graph.dependents + Graph.edges d.registry.graph.contained) +
    Agenda.cost d.items

/-- Following an edge costs less than the edge, which is detached then. -/
theorem Step.cost_lt {d e : Dismantling} (h : Step d e) : e.cost < d.cost := by
  cases h with
  | root =>
    simp only [cost, Agenda.cost, Agenda.Item.cost]
    omega
  | revisit =>
    simp only [cost, Agenda.cost, Agenda.Item.cost]
    omega
  | @visit r n =>
    have detached := Graph.edges_erase r.graph.dependents n
    simp only [cost, Agenda.cost, Agenda.Item.cost, Agenda.cost_append, Agenda.cost_opening,
      Registry.withdraw, Graph.detachDependents, Graph.dependentsOf]
    omega
  | release =>
    simp only [cost, Agenda.cost, Agenda.Item.cost]
    omega
  | @inside r n =>
    have detached := Graph.edges_erase r.graph.contained n
    simp only [cost, Agenda.cost, Agenda.Item.cost, Agenda.cost_append, Agenda.cost_visits,
      Graph.detachContained, Graph.containedIn]
    omega
  | @forget r n =>
    have scrubbed := r.graph.edges_scrub_le n
    have contained : (r.graph.scrub n).contained = r.graph.contained := rfl
    simp only [cost, Agenda.cost, Agenda.Item.cost, Graph.removeDependencies, contained]
    omega
  | finish =>
    have none : Graph.edges ∅ = 0 := rfl
    simp only [cost, Agenda.cost, Agenda.Item.cost, Graph.clear, none]
    omega

/-- Every teardown ends. -/
theorem exists_comes_done (d : Dismantling) : ∃ e, Comes d e ∧ e.items = [] := by
  induction h : d.cost using Nat.strongRecOn generalizing d with
  | ind k ih =>
    by_cases done : d.items = []
    · exact ⟨d, .refl, done⟩
    · obtain ⟨e, step⟩ := exists_step done
      obtain ⟨f, comes, done⟩ := ih e.cost (h ▸ step.cost_lt) e rfl
      exact ⟨f, comes.head step, done⟩

end Dismantling

end Singletons
