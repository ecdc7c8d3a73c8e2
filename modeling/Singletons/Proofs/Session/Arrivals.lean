import Mathlib.Data.List.Nodup
import Singletons.Proofs.Session.Trace
/-!
# Lists in the order of arrival

A list that each step either leaves in its order, dropping some names, or extends at its end by a
name that is not there yet, is sorted by when each of its names last came in.
-/

namespace Singletons

namespace Life

variable {l : Life} {raises lowers : Session → Prop} {i j k : Nat}

/-- What stands at `k` has stood since it was raised at `j`, where it did not stand yet. -/
structure StandsSince (l : Life) (raises lowers : Session → Prop) (k j : Nat) : Prop where
  lt : j < k
  raised : raises (l.after j)
  fresh : ¬ l.Raised raises lowers j
  kept : ∀ i, j < i → i < k → ¬ lowers (l.after i)

namespace StandsSince

theorem succ (h : l.StandsSince raises lowers k j) (stays : ¬ lowers (l.after k)) :
    l.StandsSince raises lowers (k + 1) j := by
  refine ⟨Nat.lt_succ_of_lt h.lt, h.raised, h.fresh, fun i hi hk => ?_⟩
  rcases Nat.lt_succ_iff_lt_or_eq.mp hk with hk | rfl
  · exact h.kept i hi hk
  · exact stays

/-- What stood before has not come in with the last step. -/
theorem pred (h : l.StandsSince raises lowers (k + 1) j) (stood : l.Raised raises lowers k) :
    l.StandsSince raises lowers k j := by
  rcases Nat.lt_succ_iff_lt_or_eq.mp h.lt with hj | rfl
  · exact ⟨hj, h.raised, h.fresh, fun i hi hk => h.kept i hi (Nat.lt_succ_of_lt hk)⟩
  · exact absurd stood h.fresh

/-- What did not stand before has come in with the last step. -/
theorem eq_of_fresh (h : l.StandsSince raises lowers (k + 1) j)
    (fresh : ¬ l.Raised raises lowers k) : j = k := by
  rcases Nat.lt_succ_iff_lt_or_eq.mp h.lt with hj | hj
  · exact absurd ⟨j, hj, h.raised, fun i hi hk => h.kept i hi (Nat.lt_succ_of_lt hk)⟩ fresh
  · exact hj

end StandsSince

theorem standsSince_now (raised : raises (l.after k)) (fresh : ¬ l.Raised raises lowers k) :
    l.StandsSince raises lowers (k + 1) k :=
  ⟨k.lt_succ_self, raised, fresh, fun i hi hk => by omega⟩

end Life

/-- What a step makes of a list of names. A name that enters comes last, unless it is there; without
one, those that do not leave stay in their order. -/
inductive Lines (leaves : Name → Prop) (names : List Name) : Option Name → List Name → Prop where
  | enters {n : Name} (stay : ∀ m, ¬ leaves m) :
    Lines leaves names (some n) (if n ∈ names then names else names ++ [n])
  | passes {next : List Name} (order : next.Sublist names)
    (mem : ∀ n, n ∈ next ↔ n ∈ names ∧ ¬ leaves n) : Lines leaves names none next

namespace Lines

variable {leaves : Name → Prop} {names next : List Name} {n : Name} {entering : Option Name}

theorem unchanged (stay : ∀ m, ¬ leaves m) : Lines leaves names none names :=
  .passes (List.Sublist.refl names) fun n => by simp [stay]

theorem filter {p : Name → Bool} (drops : ∀ n, leaves n ↔ p n = false) :
    Lines leaves names none (names.filter p) := by
  apply passes
  · exact List.filter_sublist
  · intro n
    rw [List.mem_filter, drops, Bool.not_eq_false]

theorem mem_iff (h : Lines leaves names entering next) (n : Name) :
    n ∈ next ↔ entering = some n ∨ (n ∈ names ∧ ¬ leaves n) := by
  cases h with
  | @enters m stay =>
    rw [Option.some.injEq]
    split
    · rename_i there
      constructor
      · intro known
        exact .inr ⟨known, stay n⟩
      · rintro (rfl | ⟨known, -⟩)
        · exact there
        · exact known
    · simp [stay, or_comm, eq_comm]
  | passes order mem => simp [mem]

theorem nodup (h : Lines leaves names entering next) (distinct : names.Nodup) : next.Nodup := by
  cases h with
  | enters stay =>
    split
    · exact distinct
    · rename_i absent
      rw [← List.concat_eq_append]
      exact distinct.concat absent
  | passes order mem => exact distinct.sublist order

end Lines

namespace Life

variable {l : Life} {enters : Session → Option Name} {leaves : Session → Name → Prop}
  {names : List Name} {n : Name} {i j k : Nat}

/-- The name has entered before the point and has not left since. -/
def Present (l : Life) (enters : Session → Option Name) (leaves : Session → Name → Prop)
    (n : Name) (k : Nat) : Prop :=
  l.Raised (fun s => enters s = some n) (fun s => leaves s n) k

/-- The name has last entered at `j`, where it was not present, and is present at `k` ever since. -/
def PresentSince (l : Life) (enters : Session → Option Name) (leaves : Session → Name → Prop)
    (n : Name) (k j : Nat) : Prop :=
  l.StandsSince (fun s => enters s = some n) (fun s => leaves s n) k j

/-- The list has the names that are present, each once, in the order in which they last entered. -/
structure ByArrival (l : Life) (enters : Session → Option Name) (leaves : Session → Name → Prop)
    (k : Nat) (names : List Name) : Prop where
  nodup : names.Nodup
  mem : ∀ n, n ∈ names ↔ l.Present enters leaves n k
  since : ∀ n ∈ names, ∃ j, l.PresentSince enters leaves n k j
  sorted : names.Pairwise fun m n => ∀ i j, l.PresentSince enters leaves m k i →
    l.PresentSince enters leaves n k j → i < j

namespace ByArrival

theorem start (l : Life) (enters : Session → Option Name) (leaves : Session → Name → Prop) :
    l.ByArrival enters leaves 0 [] := by
  refine ⟨.nil, fun n => ?_, fun n h => absurd h List.not_mem_nil, .nil⟩
  exact iff_of_false List.not_mem_nil not_raised_zero

/-- Names that were there before and did not leave keep the order among them. -/
theorem keeps (h : l.ByArrival enters leaves k names) {next : List Name}
    (order : next.Sublist names) : next.Pairwise fun m n => ∀ i j,
      l.PresentSince enters leaves m (k + 1) i → l.PresentSince enters leaves n (k + 1) j →
        i < j := by
  have within : ∀ m ∈ next, l.Present enters leaves m k := by
    intro m hm
    exact (h.mem m).mp (order.subset hm)
  apply (h.sorted.sublist order).imp_of_mem
  intro m n hm hn before i j first second
  exact before i j (first.pred (within m hm)) (second.pred (within n hn))

theorem succ (h : l.ByArrival enters leaves k names) {next : List Name}
    (lines : Lines (leaves (l.after k)) names (enters (l.after k)) next) :
    l.ByArrival enters leaves (k + 1) next := by
  have mem (n : Name) : n ∈ next ↔ l.Present enters leaves n (k + 1) := by
    rw [lines.mem_iff, h.mem, Present, Present, raised_succ]
  have since : ∀ n ∈ next, ∃ j, l.PresentSince enters leaves n (k + 1) j := by
    intro n hn
    by_cases there : n ∈ names
    · obtain ⟨j, hj⟩ := h.since n there
      rcases (lines.mem_iff n).mp hn with entering | ⟨-, stays⟩
      · rw [entering] at lines
        cases lines with
        | enters stay => exact ⟨j, hj.succ (stay n)⟩
      · exact ⟨j, hj.succ stays⟩
    · have entering := ((lines.mem_iff n).mp hn).resolve_right fun kept => there kept.1
      exact ⟨k, standsSince_now entering (mt (h.mem n).mpr there)⟩
  refine ⟨lines.nodup h.nodup, mem, since, ?_⟩
  generalize enters (l.after k) = entering at lines
  cases lines with
  | passes order _ => exact h.keeps order
  | @enters n stay =>
    split
    · exact h.keeps (List.Sublist.refl names)
    · rename_i absent
      -- All the others have been there before, and the new name comes in with this step.
      rw [List.pairwise_append]
      refine ⟨h.keeps (List.Sublist.refl names), List.pairwise_singleton _ _, ?_⟩
      intro m hm n' hn i j first second
      rw [List.mem_singleton] at hn
      subst n'
      have now := second.eq_of_fresh (mt (h.mem n).mpr absent)
      have earlier := (first.pred ((h.mem m).mp hm)).lt
      rw [now]
      exact earlier

end ByArrival

/-- A list that starts empty, and of which every step makes what it has to, is always in order. -/
theorem byArrival_of_lines (l : Life) {enters : Session → Option Name}
    {leaves : Session → Name → Prop} (names : Nat → List Name) (start : names 0 = [])
    (lines : ∀ k, Lines (leaves (l.after k)) (names k) (enters (l.after k)) (names (k + 1)))
    (k : Nat) : l.ByArrival enters leaves k (names k) := by
  induction k with
  | zero =>
    rw [start]
    exact .start l enters leaves
  | succ k ih => exact ih.succ (lines k)

end Life

end Singletons
