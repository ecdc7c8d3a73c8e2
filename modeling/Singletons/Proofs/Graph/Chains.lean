import Singletons.Proofs.Graph.Links
/-!
# Chains of dependents

Whether a name depends on another one is looked for along chains: from a name to what is filed under
its canonical form, and on from there. The search finds a candidate exactly at the end of a chain.
-/

namespace Singletons

open Std.DTreeMap.Internal in
theorem NameMap.values_eq {α : Type} (m : NameMap α) : m.values = m.toList.map (·.2) := by
  obtain ⟨⟨entries⟩⟩ := m
  induction entries using Quotient.inductionOn with
  | h t =>
    show t.inner.values = (Impl.Const.toList t.inner).map (·.2)
    rw [Impl.values_eq_map_snd, Impl.Const.toList_eq_toListModel_map, List.map_map]
    rfl

namespace Graph

variable {g : Graph} {candidate : Name}

/-- The second name is filed as a dependent of what the first one stands for. -/
def Backs (g : Graph) (n m : Name) : Prop := m ∈ g.dependentsOf (g.canonical n)

theorem backs_of_search {pending unseen : List Name}
    (h : g.search candidate pending unseen = true) :
    ∃ n ∈ pending, Relation.TransGen g.Backs n candidate := by
  induction pending, unseen using search.induct g candidate with
  | case1 unseen => simp [search] at h
  | case2 n pending unseen found hit =>
    exact ⟨n, List.mem_cons_self, .single (List.contains_iff_mem.mp hit)⟩
  | case3 n pending unseen found miss split ih =>
    rw [search, if_neg miss] at h
    obtain ⟨m, hm, chain⟩ := ih h
    rcases List.mem_append.mp hm with new | old
    · have filed : m ∈ found := by
        simp only [split, List.partition_eq_filter_filter, List.mem_filter] at new
        exact List.contains_iff_mem.mp new.2
      exact ⟨n, List.mem_cons_self, chain.head filed⟩
    · exact ⟨m, List.mem_cons_of_mem _ old, chain⟩

/-- A search that fails has been through all that chains lead to, if it has been through everything
between what it has seen and what is pending. -/
theorem not_backs_of_search (g : Graph) (candidate : Name) (pending unseen : List Name) :
    g.search candidate pending unseen = false → ∀ seen : List Name,
      (∀ n ∈ seen, ∀ m, g.Backs n m → m ≠ candidate ∧ (m ∈ seen ∨ m ∈ pending)) →
      (∀ n m, g.Backs n m → m ∈ unseen ∨ m ∈ seen ∨ m ∈ pending) →
      ∀ n, n ∈ seen ∨ n ∈ pending → ¬ Relation.TransGen g.Backs n candidate := by
  induction pending, unseen using search.induct g candidate with
  | case1 unseen =>
    intro _ seen through _ n hn chain
    have closed {m : Name} (chain : Relation.ReflTransGen g.Backs n m) : m ∈ seen := by
      induction chain with
      | refl => simpa using hn
      | tail _ hop ih => simpa using (through _ ih _ hop).2
    obtain ⟨m, before, hop⟩ := Relation.TransGen.tail'_iff.mp chain
    exact (through m (closed before) candidate hop).1 rfl
  | case2 k pending unseen found hit =>
    intro h
    rw [search, if_pos hit] at h
    cases h
  | case3 k pending unseen found miss split ih =>
    intro h seen through known n hn
    rw [search, if_neg miss] at h
    have filed (m : Name) : m ∈ split.1 ↔ m ∈ unseen ∧ m ∈ found := by
      simp [split, List.partition_eq_filter_filter]
    have left (m : Name) : m ∈ split.2 ↔ m ∈ unseen ∧ m ∉ found := by
      simp [split, List.partition_eq_filter_filter]
    apply ih h (k :: seen)
    · intro x hx m hop
      rw [List.mem_append, filed]
      rcases List.mem_cons.mp hx with rfl | hx
      · have other : m ≠ candidate := by
          rintro rfl
          exact miss (List.contains_iff_mem.mpr hop)
        have before := known x m hop
        refine ⟨other, ?_⟩
        grind [Backs]
      · obtain ⟨other, before⟩ := through x hx m hop
        refine ⟨other, ?_⟩
        grind
    · intro x m hop
      have before := known x m hop
      rw [List.mem_append, filed, left]
      grind
    · rw [List.mem_append]
      grind

theorem mem_values_of_backs {n m : Name} (h : g.Backs n m) :
    m ∈ g.dependents.values.flatMap (·.toList) := by
  simp only [Backs, dependentsOf, members, Std.ExtTreeMap.getD_eq_getD_getElem?] at h
  cases entry : g.dependents[g.canonical n]? with
  | none => simp [entry] at h
  | some known =>
    rw [entry, Option.getD_some] at h
    have filed : (g.canonical n, known) ∈ g.dependents.toList :=
      Std.ExtTreeMap.mem_toList_iff_getElem?_eq_some.mpr entry
    rw [NameMap.values_eq]
    exact List.mem_flatMap.mpr ⟨known, List.mem_map_of_mem filed, h⟩

/-- A name depends on another one if a chain leads there, whatever cycles there are. -/
theorem isDependent_iff (g : Graph) (n candidate : Name) :
    g.isDependent n candidate = true ↔ Relation.TransGen g.Backs n candidate := by
  constructor
  · intro h
    obtain ⟨m, hm, chain⟩ := backs_of_search h
    obtain rfl := List.mem_singleton.mp hm
    exact chain
  · intro chain
    apply Classical.byContradiction
    intro h
    have failed := Bool.eq_false_iff.mpr h
    refine not_backs_of_search g candidate _ _ failed [] (by simp) ?_ n
      (.inr List.mem_cons_self) chain
    intro k m hop
    left
    exact mem_values_of_backs hop

end Graph

end Singletons
