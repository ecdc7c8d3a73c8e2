import Mathlib.Data.Finset.Card
import Mathlib.Data.Finset.Dedup
import Singletons.Proofs.Graph.Chains
/-!
# Walks through the dependents

A walk takes the pending name that was noted last, passes over it if it was visited before, and
otherwise looks for the candidate under what the name stands for and notes the names that are filed
there. Every walk ends, whatever cycles and aliases there are, and it answers as the search does: it
finds the candidate exactly if a chain leads there.
-/

namespace Singletons

namespace Graph

variable {g : Graph} {candidate : Name}

/-- What a walk notes when it visits a name: all that is filed under what the name stands for and
was not visited, the greatest one on top. -/
def fresh (g : Graph) (n : Name) (visited : List Name) : List Name :=
  ((g.dependentsOf (g.canonical n)).filter (· ∉ visited)).reverse

/-- A walk from the pending names on, when some were visited already, with its answer. -/
inductive Walks (g : Graph) (candidate : Name) : (pending visited : List Name) → Bool → Prop
  | exhausted {visited : List Name} : Walks g candidate [] visited false
  | again {n : Name} {pending visited : List Name} {answer : Bool} (known : n ∈ visited)
      (rest : Walks g candidate pending visited answer) :
      Walks g candidate (n :: pending) visited answer
  | found {n : Name} {pending visited : List Name} (new : n ∉ visited)
      (hit : g.Backs n candidate) : Walks g candidate (n :: pending) visited true
  | through {n : Name} {pending visited : List Name} {answer : Bool} (new : n ∉ visited)
      (miss : ¬ g.Backs n candidate)
      (rest : Walks g candidate (g.fresh n (n :: visited) ++ pending) (n :: visited) answer) :
      Walks g candidate (n :: pending) visited answer

theorem mem_fresh {n m : Name} {visited : List Name} :
    m ∈ g.fresh n visited ↔ g.Backs n m ∧ m ∉ visited := by
  simp [fresh, Backs]

/-- The names that a walk can still visit. -/
def ahead (g : Graph) (pending visited : List Name) : Finset Name :=
  (g.dependents.values.flatMap (·.toList) ++ pending).toFinset.filter (· ∉ visited)

theorem mem_ahead {pending visited : List Name} {m : Name} :
    m ∈ g.ahead pending visited ↔
      (m ∈ g.dependents.values.flatMap (·.toList) ∨ m ∈ pending) ∧ m ∉ visited := by
  simp only [ahead, Finset.mem_filter, List.mem_toFinset, List.mem_append]

theorem ahead_again (g : Graph) (n : Name) (pending visited : List Name) :
    g.ahead pending visited ⊆ g.ahead (n :: pending) visited := by
  intro m hm
  rw [mem_ahead] at hm ⊢
  exact ⟨hm.1.imp_right (List.mem_cons_of_mem n), hm.2⟩

/-- A visit moves a name out of what is ahead, and all that it notes was ahead before. -/
theorem ahead_through (g : Graph) {n : Name} (pending : List Name) {visited : List Name}
    (new : n ∉ visited) :
    g.ahead (g.fresh n (n :: visited) ++ pending) (n :: visited) ⊂
      g.ahead (n :: pending) visited := by
  rw [Finset.ssubset_iff_of_subset]
  · refine ⟨n, mem_ahead.mpr ⟨.inr List.mem_cons_self, new⟩, ?_⟩
    intro hn
    exact (mem_ahead.mp hn).2 List.mem_cons_self
  · intro m hm
    rw [mem_ahead] at hm ⊢
    obtain ⟨source, unvisited⟩ := hm
    refine ⟨?_, fun h => unvisited (List.mem_cons_of_mem n h)⟩
    rcases source with filed | noted
    · exact .inl filed
    · rcases List.mem_append.mp noted with noted | old
      · exact .inl (mem_values_of_backs (mem_fresh.mp noted).1)
      · exact .inr (List.mem_cons_of_mem n old)

/-- Every walk ends: passing over a name takes it off the pending ones, and a visit leaves fewer
names ahead. -/
theorem exists_walks (g : Graph) (candidate : Name) (pending visited : List Name) :
    ∃ answer, g.Walks candidate pending visited answer := by
  have within : ∀ bound pending visited, (g.ahead pending visited).card < bound →
      ∃ answer, g.Walks candidate pending visited answer := by
    intro bound
    induction bound with
    | zero =>
      intro _ _ h
      exact absurd h (Nat.not_lt_zero _)
    | succ bound fewer =>
      intro pending visited h
      induction pending with
      | nil => exact ⟨false, .exhausted⟩
      | cons n pending shorter =>
        by_cases known : n ∈ visited
        · have still := Finset.card_le_card (ahead_again g n pending visited)
          obtain ⟨answer, rest⟩ := shorter (by omega)
          exact ⟨answer, .again known rest⟩
        · by_cases hit : g.Backs n candidate
          · exact ⟨true, .found known hit⟩
          · have less := Finset.card_lt_card (ahead_through g pending known)
            obtain ⟨answer, rest⟩ := fewer _ _ (Nat.lt_of_lt_of_le less (Nat.le_of_lt_succ h))
            exact ⟨answer, .through known hit rest⟩
  exact within _ pending visited (Nat.lt_succ_self _)

/-- What a walk has found is at the end of a chain from one of the pending names. -/
theorem transGen_of_walks {pending visited : List Name}
    (walk : g.Walks candidate pending visited true) :
    ∃ n ∈ pending, Relation.TransGen g.Backs n candidate := by
  generalize h : true = answer at walk
  induction walk with
  | exhausted => cases h
  | again _ _ ih =>
    obtain ⟨m, hm, chain⟩ := ih h
    exact ⟨m, List.mem_cons_of_mem _ hm, chain⟩
  | @found n pending _ _ hit => exact ⟨n, List.mem_cons_self, .single hit⟩
  | @through n pending _ _ _ _ _ ih =>
    obtain ⟨m, hm, chain⟩ := ih h
    rcases List.mem_append.mp hm with noted | old
    · exact ⟨n, List.mem_cons_self, chain.head (mem_fresh.mp noted).1⟩
    · exact ⟨m, List.mem_cons_of_mem n old, chain⟩

/-- No chain leads out of a set of names that has all that its names back, the candidate not among
it. -/
theorem not_transGen_of_closed {visited : List Name}
    (closed : ∀ n ∈ visited, ∀ m, g.Backs n m → m ≠ candidate ∧ m ∈ visited) {n : Name}
    (hn : n ∈ visited) : ¬ Relation.TransGen g.Backs n candidate := by
  intro chain
  obtain ⟨m, before, last⟩ := Relation.TransGen.tail'_iff.mp chain
  have hm : m ∈ visited := by
    clear last chain
    induction before with
    | refl => exact hn
    | tail _ hop ih => exact (closed _ ih _ hop).2
  exact (closed m hm candidate last).1 rfl

/-- A walk that ends without the candidate has been wherever chains lead from its names, if all that
the visited names back, the candidate not among it, was visited or is pending. -/
theorem not_transGen_of_walks {pending visited : List Name}
    (walk : g.Walks candidate pending visited false)
    (covered : ∀ n ∈ visited, ∀ m, g.Backs n m → m ≠ candidate ∧ (m ∈ visited ∨ m ∈ pending))
    {n : Name} (hn : n ∈ visited ∨ n ∈ pending) : ¬ Relation.TransGen g.Backs n candidate := by
  generalize h : false = answer at walk
  induction walk with
  | exhausted =>
    refine not_transGen_of_closed (fun k hk m hop => ?_) (by simpa using hn)
    simpa using covered k hk m hop
  | @again k pending visited _ known _ ih =>
    have drop {m : Name} (hm : m ∈ visited ∨ m ∈ k :: pending) : m ∈ visited ∨ m ∈ pending := by
      grind
    exact ih (fun x hx m hop => (covered x hx m hop).imp_right drop) (drop hn) h
  | found => cases h
  | @through k pending visited _ _ miss _ ih =>
    have move {m : Name} (hm : m ∈ visited ∨ m ∈ k :: pending) :
        m ∈ k :: visited ∨ m ∈ g.fresh k (k :: visited) ++ pending := by
      grind
    refine ih (fun x hx m hop => ?_) (move hn) h
    rcases List.mem_cons.mp hx with rfl | hx
    · refine ⟨fun same => miss (same ▸ hop), ?_⟩
      by_cases seen : m ∈ x :: visited
      · exact .inl seen
      · exact .inr (List.mem_append_left _ (mem_fresh.mpr ⟨hop, seen⟩))
    · exact (covered x hx m hop).imp_right move

/-- A walk from one name finds the candidate exactly at the end of a chain. -/
theorem walks_answer {n : Name} {answer : Bool} (walk : g.Walks candidate [n] [] answer) :
    answer = true ↔ Relation.TransGen g.Backs n candidate := by
  constructor
  · rintro rfl
    obtain ⟨m, hm, chain⟩ := transGen_of_walks walk
    rwa [← List.mem_singleton.mp hm]
  · intro chain
    by_contra missed
    rw [Bool.not_eq_true] at missed
    subst missed
    have none_visited : ∀ k ∈ ([] : List Name), ∀ m, g.Backs k m →
        m ≠ candidate ∧ (m ∈ ([] : List Name) ∨ m ∈ [n]) := by
      intro k hk
      cases hk
    exact not_transGen_of_walks walk none_visited (.inr List.mem_cons_self) chain

/-- The names `x 0`, `x 1`, …, `x k` lead from the first of them to the last, each one filed as a
dependent of what the one before stands for. -/
structure IsChain (g : Graph) (n candidate : Name) (k : Nat) (x : Nat → Name) : Prop where
  start : x 0 = n
  finish : x k = candidate
  hop : ∀ i < k, x (i + 1) ∈ g.dependentsOf (g.canonical (x i))

theorem transGen_iff_exists_isChain {n : Name} :
    Relation.TransGen g.Backs n candidate ↔ ∃ k x, 1 ≤ k ∧ g.IsChain n candidate k x := by
  constructor
  · intro chain
    induction chain with
    | @single m hop =>
      refine ⟨1, fun i => if i = 0 then n else m, Nat.le_refl 1, rfl, rfl, ?_⟩
      intro i hi
      obtain rfl : i = 0 := by omega
      exact hop
    | @tail m c _ hop ih =>
      obtain ⟨k, x, long, start, finish, hops⟩ := ih
      refine ⟨k + 1, fun i => if i ≤ k then x i else c, by omega, by simpa using start, by simp, ?_⟩
      intro i hi
      rcases Nat.lt_or_eq_of_le (Nat.le_of_lt_succ hi) with before | rfl
      · simpa [Nat.succ_le_of_lt before, before.le] using hops i before
      · simpa [Backs, finish, Nat.not_succ_le_self] using hop
  · rintro ⟨k, x, long, start, finish, hops⟩
    have reach : ∀ i < k, Relation.TransGen g.Backs n (x (i + 1)) := by
      intro i
      induction i with
      | zero =>
        intro hi
        rw [← start]
        exact .single (hops 0 hi)
      | succ i ih =>
        intro hi
        exact (ih (by omega)).tail (hops (i + 1) hi)
    have last := reach (k - 1) (by omega)
    rwa [Nat.sub_add_cancel long, finish] at last

/-- In every graph, whatever its aliases and cycles are, the walk from a name ends with one answer,
that of the query; and it is positive exactly if a chain of one or more hops leads to the candidate,
so for a name itself exactly if the name is on a cycle. -/
theorem isDependent_iff_exists_isChain (g : Graph) (n candidate : Name) :
    (∀ answer, g.Walks candidate [n] [] answer ↔ answer = g.isDependent n candidate) ∧
      (g.isDependent n candidate = true ↔ ∃ k x, 1 ≤ k ∧ g.IsChain n candidate k x) := by
  have same {answer : Bool} (walk : g.Walks candidate [n] [] answer) :
      answer = g.isDependent n candidate := by
    rw [Bool.eq_iff_iff, walks_answer walk, isDependent_iff]
  refine ⟨fun answer => ⟨same, ?_⟩, ?_⟩
  · rintro rfl
    obtain ⟨answer, walk⟩ := g.exists_walks candidate [n] []
    rwa [← same walk]
  · rw [isDependent_iff, transGen_iff_exists_isChain]

end Graph

end Singletons
