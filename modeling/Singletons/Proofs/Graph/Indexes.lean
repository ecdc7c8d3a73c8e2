import Singletons.Proofs.Graph.Links
/-!
# The indexes of a graph

An edge is filed with both of its ends, and a part with a container that depends on it. No index
has an entry for a name that nothing is filed under.
-/

namespace Singletons

namespace Graph

/-- Every entry of the index has a member. -/
def Filled (index : NameMap NameSet) : Prop := ∀ n : Name, index[n]? ≠ some (∅ : NameSet)

theorem Filled.contains_iff {index : NameMap NameSet} (h : Filled index) (n : Name) :
    index.contains n = true ↔ members index n ≠ [] := by
  rw [Std.ExtTreeMap.contains_eq_isSome_getElem?, members, Std.ExtTreeMap.getD_eq_getD_getElem?]
  cases entry : index[n]? with
  | none => simp
  | some filed =>
    have other : filed ≠ ∅ := fun none => h n (none ▸ entry)
    simpa using other

theorem filled_empty : Filled ∅ := by
  intro n h
  simp at h

theorem Filled.getElem?_eq {index : NameMap NameSet} (h : Filled index) (n : Name) :
    index[n]? = if index.getD n ∅ = ∅ then none else some (index.getD n ∅) := by
  rw [Std.ExtTreeMap.getD_eq_getD_getElem?]
  cases entry : index[n]? with
  | none => exact (if_pos rfl).symm
  | some known =>
    have other : known ≠ ∅ := fun none => h n (none ▸ entry)
    exact (if_neg other).symm

/-- What is filed under every name determines an index that has no empty entry. -/
theorem Filled.ext {index index' : NameMap NameSet} (h : Filled index) (h' : Filled index')
    (same : ∀ n m, m ∈ members index n ↔ m ∈ members index' n) : index = index' := by
  refine Std.ExtTreeMap.ext_getElem? fun n => ?_
  have filed : index.getD n ∅ = index'.getD n ∅ :=
    Std.ExtTreeSet.ext_mem fun m => by rw [← mem_members, ← mem_members, same]
  rw [h.getElem?_eq, h'.getElem?_eq, filed]

/-- Members that are struck are left out of the list; the others keep their order. -/
theorem members_eq_filter {index index' : NameMap NameSet} {n : Name} {p : Name → Bool}
    (h : ∀ m, m ∈ members index' n ↔ m ∈ members index n ∧ p m) :
    members index' n = (members index n).filter p := by
  have kept : index'.getD n ∅ = (index.getD n ∅).filter p :=
    Std.ExtTreeSet.ext_mem fun m => by simp [← mem_members, h]
  rw [members, kept, Std.ExtTreeSet.toList_filter, members]

theorem Filled.insert {index : NameMap NameSet} (h : Filled index) (n m : Name)
    (known : NameSet) : Filled (index.insert n (known.insert m)) := by
  intro k
  rw [NameMap.getElem?_insert]
  split
  · intro none
    have filed : m ∈ known.insert m := (known.mem_insert m m).mpr (.inl rfl)
    rw [Option.some.inj none] at filed
    simp at filed
  · exact h k

theorem Filled.erase {index : NameMap NameSet} (h : Filled index) (n : Name) :
    Filled (index.erase n) := by
  intro k
  rw [NameMap.getElem?_erase]
  split
  · simp
  · exact h k

/-- Striking a name leaves no empty set behind. -/
theorem filled_scrub (g : Graph) (n : Name) : Filled (g.scrub n).dependents := by
  intro k
  simp only [scrub, Std.ExtTreeMap.getElem?_filterMap]
  cases g.dependents[k]? with
  | none => simp
  | some known => simp

theorem members_erase (index : NameMap NameSet) (n k : Name) :
    members (index.erase n) k = if k = n then [] else members index k := by
  rw [members, NameMap.getD_erase, members]
  by_cases same : k = n
  · rw [if_pos same.symm, if_pos same]
    rfl
  · rw [if_neg (Ne.symm same), if_neg same]

/-- What is filed about a graph agrees. -/
structure Mirrored (g : Graph) : Prop where
  mirror : ∀ n d, d ∈ g.dependentsOf n ↔ n ∈ g.dependenciesOf d
  nested : g.Nested
  dependents : Filled g.dependents
  dependencies : Filled g.dependencies
  contained : Filled g.contained

theorem Mirrored.mem_dependenciesOf_depend {g : Graph} (h : g.Mirrored) (n d k m : Name) :
    m ∈ (g.depend n d).dependenciesOf k ↔ (k = d ∧ m = g.canonical n) ∨ m ∈ g.dependenciesOf k := by
  simp only [depend]
  split
  · rename_i known
    have filed := (h.mirror (g.canonical n) d).mp ((mem_members _ _ _).mpr known)
    grind
  · simp only [dependenciesOf, mem_members, NameMap.getD_insert]
    split
    · subst k
      rw [NameSet.mem_insert]
      grind
    · grind

theorem Mirrored.filled_depend {g : Graph} (h : g.Mirrored) (n d : Name) :
    Filled (g.depend n d).dependents ∧ Filled (g.depend n d).dependencies := by
  simp only [depend]
  split
  · exact ⟨h.dependents, h.dependencies⟩
  · exact ⟨h.dependents.insert _ _ _, h.dependencies.insert _ _ _⟩

theorem Mirrored.depend {g : Graph} (h : g.Mirrored) (n d : Name) : (g.depend n d).Mirrored where
  mirror k m := by
    rw [mem_dependentsOf_depend, h.mem_dependenciesOf_depend, h.mirror]
    grind
  nested := h.nested.record (.depend n d)
  dependents := (h.filled_depend n d).1
  dependencies := (h.filled_depend n d).2
  contained := by
    rw [contained_depend]
    exact h.contained

/-- A part that is filed for the first time brings its dependency along, and nothing else. -/
theorem contain_eq (g : Graph) (c p : Name) :
    g.contain c p = g ∨
      g.contain c p = { g.depend p c with
        contained := g.contained.insert c ((g.contained.getD c ∅).insert p) } := by
  simp only [contain]
  split
  · exact .inl rfl
  · right
    simp only [Graph.depend]
    split <;> rfl

theorem Mirrored.contain {g : Graph} (h : g.Mirrored) (c p : Name) : (g.contain c p).Mirrored := by
  have nested := h.nested.record (.contain c p)
  rw [Graph.record] at nested
  rcases g.contain_eq c p with same | new
  · rw [same]
    exact h
  · rw [new] at nested ⊢
    have depends := h.depend p c
    exact ⟨depends.mirror, nested, depends.dependents, depends.dependencies,
      h.contained.insert _ _ _⟩

end Graph

end Singletons
