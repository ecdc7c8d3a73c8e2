import Singletons.Names
/-!
# Dependencies between names

For every name the graph knows who depends on it, for every dependent what it depends on, and for
every container what it holds. A dependency is filed under the canonical form of the name that is
depended on; the dependent is filed as it is written.
-/

namespace Singletons

structure Graph where
  canonical : Name → Name := id
  dependents : NameMap NameSet := ∅
  dependencies : NameMap NameSet := ∅
  contained : NameMap NameSet := ∅

namespace Graph

/-- The members filed under a name, in ascending order. -/
def members (index : NameMap NameSet) (n : Name) : List Name := (index.getD n ∅).toList

def dependentsOf (g : Graph) (n : Name) : List Name := members g.dependents n

def dependenciesOf (g : Graph) (n : Name) : List Name := members g.dependencies n

def containedIn (g : Graph) (n : Name) : List Name := members g.contained n

def hasDependents (g : Graph) (n : Name) : Bool := g.dependents.contains n

/-- Records that `dependent` depends on `n`. What is already recorded is left alone. -/
def depend (g : Graph) (n dependent : Name) : Graph :=
  let key := g.canonical n
  let known := g.dependents.getD key ∅
  if known.contains dependent then g else
    { g with
      dependents := g.dependents.insert key (known.insert dependent)
      dependencies :=
        g.dependencies.insert dependent ((g.dependencies.getD dependent ∅).insert key) }

/-- Records that `container` holds `part`, and on the first such record that it depends on it. -/
def contain (g : Graph) (container part : Name) : Graph :=
  let known := g.contained.getD container ∅
  if known.contains part then g else
    { g with contained := g.contained.insert container (known.insert part) }.depend part container

private theorem partition_length (p : Name → Bool) (xs : List Name) :
    (xs.partition p).1.length + (xs.partition p).2.length = xs.length := by
  rw [List.partition_eq_filter_filter, ← List.countP_eq_length_filter,
    ← List.countP_eq_length_filter, List.length_eq_countP_add_countP p]
  congr 2
  funext x
  cases h : p x <;> simp [h]

/-- Looks for `candidate` among the dependents of the pending names and, transitively, of theirs.
A name in `unseen` becomes pending at most once, so cycles do no harm. -/
def search (g : Graph) (candidate : Name) : (pending unseen : List Name) → Bool
  | [], _ => false
  | n :: pending, unseen =>
    let found := g.dependentsOf (g.canonical n)
    if found.contains candidate then true else
      let split := unseen.partition found.contains
      g.search candidate (split.1 ++ pending) split.2
termination_by pending unseen => pending.length + unseen.length
decreasing_by
  have := partition_length (g.dependentsOf (g.canonical n)).contains unseen
  simp only [List.length_append, List.length_cons]
  omega

/-- Whether `candidate` depends on `n`, directly or through other names. -/
def isDependent (g : Graph) (n candidate : Name) : Bool :=
  g.search candidate [n] (g.dependents.values.flatMap (·.toList))

def detachDependents (g : Graph) (n : Name) : Graph := { g with dependents := g.dependents.erase n }

def detachContained (g : Graph) (n : Name) : Graph := { g with contained := g.contained.erase n }

/-- Strikes a name from every set of dependents and drops the sets that are empty then. -/
def scrub (g : Graph) (n : Name) : Graph :=
  { g with
    dependents := g.dependents.filterMap fun _ known =>
      let rest := known.erase n
      if rest.isEmpty then none else some rest }

def removeDependencies (g : Graph) (n : Name) : Graph :=
  { g with dependencies := g.dependencies.erase n }

def clear (g : Graph) : Graph := { canonical := g.canonical }

theorem mem_members (index : NameMap NameSet) (n m : Name) :
    m ∈ members index n ↔ m ∈ index.getD n ∅ := by
  simp [members]

theorem mem_dependentsOf_depend (g : Graph) (n d k m : Name) :
    m ∈ (g.depend n d).dependentsOf k ↔
      (k = g.canonical n ∧ m = d) ∨ m ∈ g.dependentsOf k := by
  simp only [depend, dependentsOf]
  split
  · simp only [mem_members]
    grind
  · simp only [mem_members, NameMap.getD_insert]
    split
    · subst k
      simp only [Std.ExtTreeSet.mem_insert, Std.compare_eq_iff_eq]
      grind
    · grind

theorem mem_dependentsOf_detachDependents (g : Graph) (n k m : Name) :
    m ∈ (g.detachDependents n).dependentsOf k ↔ k ≠ n ∧ m ∈ g.dependentsOf k := by
  simp only [detachDependents, dependentsOf, mem_members, NameMap.getD_erase]
  grind

theorem mem_dependentsOf_scrub (g : Graph) (n k m : Name) :
    m ∈ (g.scrub n).dependentsOf k ↔ m ≠ n ∧ m ∈ g.dependentsOf k := by
  simp only [scrub, dependentsOf, mem_members, Std.ExtTreeMap.getD_eq_getD_getElem?,
    Std.ExtTreeMap.getElem?_filterMap]
  cases g.dependents[k]? with
  | none => simp
  | some known =>
    have struck : m ∈ known.erase n ↔ m ≠ n ∧ m ∈ known := by
      rw [Std.ExtTreeSet.mem_erase, ne_eq, Std.compare_eq_iff_eq, eq_comm]
    by_cases h : (known.erase n).isEmpty
    · have : m ∉ known.erase n := by simp [Std.ExtTreeSet.isEmpty_iff.mp h]
      simp only [Option.pbind_some, h, if_true, Option.getD_none, Option.getD_some]
      grind
    · simp only [Option.pbind_some, h, Option.getD_some]
      exact struck

end Graph

end Singletons
