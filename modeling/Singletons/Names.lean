import Std.Data.ExtTreeMap
import Std.Data.ExtTreeSet
/-!
# Names

Names are texts. Sets of names and tables over names are extensional and list their members in
the order of their UTF-8 bytes, which for texts is the order of their code points.
-/

namespace Singletons

abbrev Name := String

abbrev NameSet := Std.ExtTreeSet Name

abbrev NameMap (α : Type) := Std.ExtTreeMap Name α

namespace NameMap

variable {α : Type}

theorem getElem?_insert (m : NameMap α) (k a : Name) (v : α) :
    (m.insert k v)[a]? = if k = a then some v else m[a]? := by
  simp [Std.ExtTreeMap.getElem?_insert]

theorem getElem?_erase (m : NameMap α) (k a : Name) :
    (m.erase k)[a]? = if k = a then none else m[a]? := by
  simp [Std.ExtTreeMap.getElem?_erase]

theorem getD_insert (m : NameMap α) (k a : Name) (v d : α) :
    (m.insert k v).getD a d = if k = a then v else m.getD a d := by
  simp [Std.ExtTreeMap.getD_insert]

theorem getD_erase (m : NameMap α) (k a : Name) (d : α) :
    (m.erase k).getD a d = if k = a then d else m.getD a d := by
  simp [Std.ExtTreeMap.getD_erase]

end NameMap

theorem NameSet.mem_insert (s : NameSet) (n m : Name) : m ∈ s.insert n ↔ m = n ∨ m ∈ s := by
  rw [Std.ExtTreeSet.mem_insert, Std.compare_eq_iff_eq, eq_comm]

end Singletons
