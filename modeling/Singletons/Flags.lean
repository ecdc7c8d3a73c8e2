import Singletons.Names
/-!
# Names in creation

A name is in creation while its factory runs. Excluded names take no part in the check against
creating a name twice at once: marking and unmarking them succeeds and records nothing.
-/

namespace Singletons

structure Flags where
  inCreation : NameSet := ∅
  excluded : NameSet := ∅

namespace Flags

def isExcluded (f : Flags) (n : Name) : Bool := f.excluded.contains n

/-- Whether the name is recorded, excluded or not. -/
def isInCreation (f : Flags) (n : Name) : Bool := f.inCreation.contains n

def isCurrentlyInCreation (f : Flags) (n : Name) : Bool := !f.isExcluded n && f.isInCreation n

/-- Records a name; the answer is whether its creation may go on. -/
def mark (f : Flags) (n : Name) : Bool × Flags :=
  if f.isExcluded n then (true, f)
  else (!f.isInCreation n, { f with inCreation := f.inCreation.insert n })

/-- Strikes a name; the answer is whether it was in creation. -/
def unmark (f : Flags) (n : Name) : Bool × Flags :=
  if f.isExcluded n then (true, f)
  else (f.isInCreation n, { f with inCreation := f.inCreation.erase n })

def setExcluded (f : Flags) (n : Name) (excluded : Bool) : Flags :=
  { f with excluded := if excluded then f.excluded.insert n else f.excluded.erase n }

/-- Marking records only the name itself, and not even that if it is excluded. -/
theorem isInCreation_mark (f : Flags) (n m : Name) :
    (f.mark n).2.isInCreation m = (f.isInCreation m || (m = n && !f.isExcluded n)) := by
  unfold mark
  split
  · simp [*]
  · rw [Bool.eq_iff_iff]
    simp only [isInCreation, Std.ExtTreeSet.contains_insert]
    grind

/-- Unmarking strikes only the name itself, and not even that if it is excluded. -/
theorem isInCreation_unmark (f : Flags) (n m : Name) :
    (f.unmark n).2.isInCreation m = (f.isInCreation m && (m ≠ n || f.isExcluded n)) := by
  unfold unmark
  split
  · simp [*]
  · rw [Bool.eq_iff_iff]
    simp only [isInCreation, Std.ExtTreeSet.contains_erase]
    grind

theorem isExcluded_setExcluded (f : Flags) (n m : Name) (b : Bool) :
    (f.setExcluded n b).isExcluded m = if m = n then b else f.isExcluded m := by
  cases b <;> simp only [setExcluded, isExcluded] <;> grind

end Flags

end Singletons
