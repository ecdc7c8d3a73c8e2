import Singletons.Proofs.Graph.Indexes
import Singletons.Registry.Teardown
/-!
# Registries that names are taken out of

A teardown takes a name out in three strokes: it withdraws the name, empties it of what it
contained, and forgets it as a dependent. Which names have had which stroke determines what is left
of a registry; the order of the strokes does not matter.
-/

namespace Singletons

namespace Graph

theorem hasDependents_detachDependents (g : Graph) (n k : Name) :
    (g.detachDependents n).hasDependents k ↔ k ≠ n ∧ g.hasDependents k := by
  rw [hasDependents, hasDependents, detachDependents, Std.ExtTreeMap.contains_iff_mem,
    Std.ExtTreeMap.contains_iff_mem, Std.ExtTreeMap.mem_erase, ne_eq, Std.compare_eq_iff_eq,
    ne_comm]

/-- No empty set of dependents survives. -/
theorem hasDependents_scrub {g : Graph} {n k : Name} (h : (g.scrub n).hasDependents k) :
    g.hasDependents k ∧ (g.scrub n).dependentsOf k ≠ [] := by
  simp only [hasDependents, dependentsOf, members, scrub, Std.ExtTreeMap.getD_eq_getD_getElem?,
    Std.ExtTreeMap.contains_eq_isSome_getElem?, Std.ExtTreeMap.getElem?_filterMap] at h ⊢
  cases known : g.dependents[k]? with
  | none => simp [known] at h
  | some filed =>
    by_cases struck : (filed.erase n).isEmpty
    · simp only [known, Option.pbind_some, struck, if_true, Option.isSome_none] at h
      cases h
    · simp only [Option.isSome_some, Option.pbind_some, struck, true_and]
      simpa [Std.ExtTreeSet.toList_eq_nil_iff] using struck

end Graph

namespace Registry

/-- What is left of a registry once names have been withdrawn, emptied and forgotten. -/
structure Stripped (r : Registry) (gone emptied forgotten : NameSet) (r' : Registry) : Prop where
  frame : r' = { r with cache := r'.cache, graph := r'.graph, disposables := r'.disposables }
  canonical : r'.graph.canonical = r.graph.canonical
  bound : ∀ m, r'.cache.bound[m]? = if m ∈ gone then none else r.cache.bound[m]?
  provisional : ∀ m, r'.cache.provisional[m]? = if m ∈ gone then none else r.cache.provisional[m]?
  registered : r'.cache.registered = r.cache.registered.filter (· ∉ gone)
  disposables : r'.disposables.entries = r.disposables.entries.filter (·.1 ∉ gone)
  dependents : ∀ k m, m ∈ r'.graph.dependentsOf k ↔
    k ∉ gone ∧ m ∉ forgotten ∧ m ∈ r.graph.dependentsOf k
  filed : ∀ k, r'.graph.hasDependents k → k ∉ gone ∧ r.graph.hasDependents k
  /-- Forgetting a name drops every entry that is empty then. -/
  tidy : (∃ m, m ∈ forgotten) → ∀ k, r'.graph.hasDependents k → r'.graph.dependentsOf k ≠ []
  dependencies : ∀ k, r'.graph.dependencies[k]? =
    if k ∈ forgotten then none else r.graph.dependencies[k]?
  contained : ∀ k, r'.graph.contained[k]? = if k ∈ emptied then none else r.graph.contained[k]?

namespace Stripped

variable {r r' : Registry} {gone emptied forgotten : NameSet}

theorem refl (r : Registry) : r.Stripped ∅ ∅ ∅ r where
  frame := rfl
  canonical := rfl
  bound m := by simp
  provisional m := by simp
  registered := (List.filter_eq_self.mpr fun _ _ => by simp).symm
  disposables := (List.filter_eq_self.mpr fun _ _ => by simp).symm
  dependents k m := by simp
  filed k h := by simpa using h
  tidy h := by simp at h
  dependencies k := by simp
  contained k := by simp

theorem handle? (h : r.Stripped gone emptied forgotten r') (m : Name) :
    r'.disposables.handle? m = if m ∈ gone then none else r.disposables.handle? m := by
  rw [Disposables.handle?, h.disposables, Disposables.handle?]
  induction r.disposables.entries with
  | nil => simp
  | cons e es ih => grind

theorem mem_containedIn (h : r.Stripped gone emptied forgotten r') (k m : Name) :
    m ∈ r'.graph.containedIn k ↔ k ∉ emptied ∧ m ∈ r.graph.containedIn k := by
  simp only [Graph.containedIn, Graph.members, Std.ExtTreeMap.getD_eq_getD_getElem?, h.contained]
  split
  · simp [*]
  · simp [*]

theorem withdraw (h : r.Stripped gone emptied forgotten r') (n : Name) :
    r.Stripped (gone.insert n) emptied forgotten (r'.withdraw n) where
  frame := by
    rw [h.frame]
    rfl
  canonical := h.canonical
  bound m := by
    simp only [Registry.withdraw, Cache.remove, NameMap.getElem?_erase, h.bound, NameSet.mem_insert]
    grind
  provisional m := by
    simp only [Registry.withdraw, Cache.remove, NameMap.getElem?_erase, h.provisional,
      NameSet.mem_insert]
    grind
  registered := by
    simp only [Registry.withdraw, Cache.remove, h.registered, List.filter_filter,
      NameSet.mem_insert]
    grind
  disposables := by
    simp only [Registry.withdraw, Disposables.erase, h.disposables, List.filter_filter,
      NameSet.mem_insert]
    grind
  dependents k m := by
    rw [Registry.withdraw, Graph.mem_dependentsOf_detachDependents, h.dependents,
      NameSet.mem_insert]
    grind
  filed k hk := by
    obtain ⟨other, hk⟩ := (r'.graph.hasDependents_detachDependents n k).mp hk
    obtain ⟨here, filed⟩ := h.filed k hk
    refine ⟨?_, filed⟩
    rw [NameSet.mem_insert]
    exact not_or.mpr ⟨other, here⟩
  tidy forgets k hk := by
    obtain ⟨other, hk⟩ := (r'.graph.hasDependents_detachDependents n k).mp hk
    obtain ⟨m, hm⟩ := List.exists_mem_of_ne_nil _ (h.tidy forgets k hk)
    exact List.ne_nil_of_mem
      ((r'.graph.mem_dependentsOf_detachDependents n k m).mpr ⟨other, hm⟩)
  dependencies := h.dependencies
  contained := h.contained

theorem empty (h : r.Stripped gone emptied forgotten r') (n : Name) :
    r.Stripped gone (emptied.insert n) forgotten
      { r' with graph := r'.graph.detachContained n } where
  frame := by
    rw [h.frame]
  canonical := h.canonical
  bound := h.bound
  provisional := h.provisional
  registered := h.registered
  disposables := h.disposables
  dependents := h.dependents
  filed := h.filed
  tidy := h.tidy
  dependencies := h.dependencies
  contained k := by
    simp only [Graph.detachContained, NameMap.getElem?_erase, h.contained, NameSet.mem_insert]
    grind

theorem forget (h : r.Stripped gone emptied forgotten r') (n : Name) :
    r.Stripped gone emptied (forgotten.insert n)
      { r' with graph := (r'.graph.scrub n).removeDependencies n } where
  frame := by
    rw [h.frame]
  canonical := h.canonical
  bound := h.bound
  provisional := h.provisional
  registered := h.registered
  disposables := h.disposables
  dependents k m := by
    show m ∈ (r'.graph.scrub n).dependentsOf k ↔ _
    rw [Graph.mem_dependentsOf_scrub, h.dependents, NameSet.mem_insert]
    grind
  filed k hk := h.filed k (Graph.hasDependents_scrub hk).1
  tidy _ k hk := (Graph.hasDependents_scrub hk).2
  dependencies k := by
    simp only [Graph.removeDependencies, Graph.scrub, NameMap.getElem?_erase, h.dependencies,
      NameSet.mem_insert]
    grind
  contained := h.contained

theorem filled (h : r.Stripped gone emptied forgotten r') (forgets : ∃ m, m ∈ forgotten) :
    Graph.Filled r'.graph.dependents := by
  intro k none
  refine h.tidy forgets k ?_ ?_
  · rw [Graph.hasDependents, Std.ExtTreeMap.contains_eq_isSome_getElem?, none]
    rfl
  · rw [Graph.dependentsOf, Graph.members, Std.ExtTreeMap.getD_eq_getD_getElem?, none]
    rfl

/-- Once a name is forgotten, the strokes determine what is left. -/
theorem unique {r'' : Registry} (h : r.Stripped gone emptied forgotten r')
    (k : r.Stripped gone emptied forgotten r'') (forgets : ∃ m, m ∈ forgotten) : r' = r'' := by
  have bound : r'.cache.bound = r''.cache.bound :=
    Std.ExtTreeMap.ext_getElem? fun m => (h.bound m).trans (k.bound m).symm
  have provisional : r'.cache.provisional = r''.cache.provisional :=
    Std.ExtTreeMap.ext_getElem? fun m => (h.provisional m).trans (k.provisional m).symm
  have cache : r'.cache = r''.cache := calc
    r'.cache = ⟨r'.cache.bound, r'.cache.provisional, r'.cache.registered⟩ := rfl
    _ = r''.cache := by rw [bound, provisional, h.registered, ← k.registered]
  have dependents : r'.graph.dependents = r''.graph.dependents :=
    (h.filled forgets).ext (k.filled forgets) fun n m =>
      (h.dependents n m).trans (k.dependents n m).symm
  have dependencies : r'.graph.dependencies = r''.graph.dependencies :=
    Std.ExtTreeMap.ext_getElem? fun m => (h.dependencies m).trans (k.dependencies m).symm
  have contained : r'.graph.contained = r''.graph.contained :=
    Std.ExtTreeMap.ext_getElem? fun m => (h.contained m).trans (k.contained m).symm
  have graph : r'.graph = r''.graph := calc
    r'.graph = ⟨r'.graph.canonical, r'.graph.dependents, r'.graph.dependencies,
      r'.graph.contained⟩ := rfl
    _ = r''.graph := by
      rw [h.canonical, ← k.canonical, dependents, dependencies, contained]
  have disposables : r'.disposables = r''.disposables :=
    congrArg Disposables.mk (h.disposables.trans k.disposables.symm)
  rw [h.frame, k.frame, cache, graph, disposables]

/-- What is taken out one after the other is taken out. -/
theorem trans {r'' : Registry} {gone' emptied' forgotten' : NameSet}
    (h : r.Stripped gone emptied forgotten r') (k : r'.Stripped gone' emptied' forgotten' r'') :
    r.Stripped (gone ∪ gone') (emptied ∪ emptied') (forgotten ∪ forgotten') r'' where
  frame := by
    rw [k.frame, h.frame]
  canonical := k.canonical.trans h.canonical
  bound m := by
    simp only [k.bound, h.bound, Std.ExtTreeSet.mem_union_iff]
    grind
  provisional m := by
    simp only [k.provisional, h.provisional, Std.ExtTreeSet.mem_union_iff]
    grind
  registered := by
    rw [k.registered, h.registered, List.filter_filter]
    simp only [Std.ExtTreeSet.mem_union_iff]
    grind
  disposables := by
    rw [k.disposables, h.disposables, List.filter_filter]
    simp only [Std.ExtTreeSet.mem_union_iff]
    grind
  dependents x m := by
    rw [k.dependents, h.dependents, Std.ExtTreeSet.mem_union_iff, Std.ExtTreeSet.mem_union_iff]
    grind
  filed x hx := by
    obtain ⟨here', filed'⟩ := k.filed x hx
    obtain ⟨here, filed⟩ := h.filed x filed'
    refine ⟨?_, filed⟩
    rw [Std.ExtTreeSet.mem_union_iff]
    exact not_or.mpr ⟨here, here'⟩
  tidy forgets x hx := by
    by_cases again : ∃ m, m ∈ forgotten'
    · exact k.tidy again x hx
    · obtain ⟨here, filed⟩ := k.filed x hx
      have before : ∃ m, m ∈ forgotten := by
        obtain ⟨m, hm⟩ := forgets
        exact ⟨m, (Std.ExtTreeSet.mem_union_iff.mp hm).resolve_right fun h => again ⟨m, h⟩⟩
      obtain ⟨m, hm⟩ := List.exists_mem_of_ne_nil _ (h.tidy before x filed)
      exact List.ne_nil_of_mem ((k.dependents x m).mpr ⟨here, fun h => again ⟨m, h⟩, hm⟩)
  dependencies x := by
    simp only [k.dependencies, h.dependencies, Std.ExtTreeSet.mem_union_iff]
    grind
  contained x := by
    simp only [k.contained, h.contained, Std.ExtTreeSet.mem_union_iff]
    grind

end Stripped

end Registry

end Singletons
