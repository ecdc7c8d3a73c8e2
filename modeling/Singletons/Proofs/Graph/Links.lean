import Mathlib.Logic.Relation
import Singletons.Graph
/-!
# Graphs by the links they were built from

A graph that was built by recording links has an edge exactly for each of them, in whatever order
they came and however often.
-/

namespace Singletons

/-- A relation between two names that a graph is told of. -/
inductive Link where
  | depend (n dependent : Name)
  | contain (container part : Name)
  deriving DecidableEq

namespace Link

/-- The name that comes to depend on the other one. -/
def dependent : Link → Name
  | depend _ dependent => dependent
  | contain container _ => container

/-- The name that is depended on. -/
def on : Link → Name
  | depend n _ => n
  | contain _ part => part

end Link

namespace Graph

def record (g : Graph) : Link → Graph
  | .depend n dependent => g.depend n dependent
  | .contain container part => g.contain container part

def ofLinks (canonical : Name → Name) (links : List Link) : Graph :=
  links.foldl record { canonical }

theorem canonical_depend (g : Graph) (n d : Name) : (g.depend n d).canonical = g.canonical := by
  simp only [depend]
  split <;> rfl

theorem contained_depend (g : Graph) (n d : Name) : (g.depend n d).contained = g.contained := by
  simp only [depend]
  split <;> rfl

theorem canonical_contain (g : Graph) (c p : Name) : (g.contain c p).canonical = g.canonical := by
  simp only [contain]
  split
  · rfl
  · exact canonical_depend _ p c

theorem canonical_record (g : Graph) (link : Link) : (g.record link).canonical = g.canonical := by
  cases link with
  | depend n d => exact g.canonical_depend n d
  | contain c p => exact g.canonical_contain c p

theorem canonical_foldl (g : Graph) (links : List Link) :
    (links.foldl record g).canonical = g.canonical := by
  induction links generalizing g with
  | nil => rfl
  | cons link links ih => rw [List.foldl_cons, ih, canonical_record]

theorem mem_containedIn_contain (g : Graph) (c p k m : Name) :
    m ∈ (g.contain c p).containedIn k ↔ (k = c ∧ m = p) ∨ m ∈ g.containedIn k := by
  simp only [contain, containedIn]
  split
  · simp only [mem_members]
    grind
  · rw [contained_depend]
    simp only [mem_members, NameMap.getD_insert]
    split
    · subst k
      rw [NameSet.mem_insert]
      grind
    · grind

/-- Every container depends on what it contains. -/
def Nested (g : Graph) : Prop := ∀ c p, p ∈ g.containedIn c → c ∈ g.dependentsOf (g.canonical p)

theorem mem_dependentsOf_contain {g : Graph} (nested : g.Nested) (c p k m : Name) :
    m ∈ (g.contain c p).dependentsOf k ↔ (k = g.canonical p ∧ m = c) ∨ m ∈ g.dependentsOf k := by
  simp only [contain]
  split
  · rename_i known
    have filed := nested c p ((mem_members _ _ _).mpr known)
    grind
  · rw [mem_dependentsOf_depend]
    rfl

theorem mem_dependentsOf_record {g : Graph} (nested : g.Nested) (link : Link) (k m : Name) :
    m ∈ (g.record link).dependentsOf k ↔
      (k = g.canonical link.on ∧ m = link.dependent) ∨ m ∈ g.dependentsOf k := by
  cases link with
  | depend n d => exact g.mem_dependentsOf_depend n d k m
  | contain c p => exact mem_dependentsOf_contain nested c p k m

theorem Nested.record {g : Graph} (nested : g.Nested) (link : Link) : (g.record link).Nested := by
  intro c p hp
  rw [canonical_record, mem_dependentsOf_record nested]
  cases link with
  | depend n d =>
    refine .inr (nested c p ?_)
    rwa [Graph.record, containedIn, contained_depend] at hp
  | contain container part =>
    rcases (g.mem_containedIn_contain container part c p).mp hp with ⟨rfl, rfl⟩ | hp
    · exact .inl ⟨rfl, rfl⟩
    · exact .inr (nested c p hp)

theorem mem_dependentsOf_foldl {g : Graph} (nested : g.Nested) (links : List Link) (k m : Name) :
    m ∈ (links.foldl Graph.record g).dependentsOf k ↔
      (∃ link ∈ links, g.canonical link.on = k ∧ link.dependent = m) ∨ m ∈ g.dependentsOf k := by
  induction links generalizing g with
  | nil => simp
  | cons link links ih =>
    rw [List.foldl_cons, ih (nested.record link), mem_dependentsOf_record nested, canonical_record]
    simp only [List.mem_cons, exists_eq_or_imp]
    grind

theorem mem_dependentsOf_ofLinks (canonical : Name → Name) (links : List Link) (k m : Name) :
    m ∈ (ofLinks canonical links).dependentsOf k ↔
      ∃ link ∈ links, canonical link.on = k ∧ link.dependent = m := by
  have nested : Nested { canonical } := fun _ _ hp => by simp [containedIn, members] at hp
  rw [ofLinks, mem_dependentsOf_foldl nested]
  simp [dependentsOf, members]

end Graph

/-- One of the links makes the first name depend on the second one. -/
def DependsOn (links : List Link) (d n : Name) : Prop :=
  ∃ link ∈ links, link.on = n ∧ link.dependent = d

/-- No name depends on itself, by way of other names or directly. -/
def Acyclic (links : List Link) : Prop := ∀ n, ¬ Relation.TransGen (DependsOn links) n n

end Singletons
