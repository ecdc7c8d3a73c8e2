import Singletons.Proofs.Teardown.Dismantling
import Singletons.Proofs.Teardown.Stripped
/-!
# The stages of a name in a teardown

A name is withdrawn when it is visited first; its release, the visits of what it contained and its
end in the graph follow, each once, with other names in between. What is left of the registry can be
read off the stages that the names are past.
-/

namespace Singletons

/-- What there is to do for a name once it has been visited. -/
inductive Stage where
  | release
  | inside
  | forget
  deriving DecidableEq

def Agenda.Item.due? : Agenda.Item → Option (Name × Stage)
  | root _ => none
  | visit _ => none
  | release n _ => some (n, .release)
  | inside n => some (n, .inside)
  | forget n => some (n, .forget)
  | finish => none

/-- Whether an item belongs to the teardown of a single name. -/
def Agenda.Item.isLocal : Agenda.Item → Bool
  | root _ => false
  | visit _ => true
  | release _ _ => true
  | inside _ => true
  | forget _ => true
  | finish => false

namespace Agenda

def dues (a : Agenda) : List (Name × Stage) := a.items.filterMap (·.due?)

/-- A name is past a stage once it is visited and the stage is no longer due. -/
def Past (a : Agenda) (n : Name) (s : Stage) : Prop := n ∈ a.visited ∧ (n, s) ∉ a.dues

/-- The name is visited or is going to be. -/
def Meets (a : Agenda) (n : Name) : Prop := n ∈ a.visited ∨ .visit n ∈ a.items

/-- In the teardown of a single name the stages of visited names are due, each at most once. -/
structure Orderly (a : Agenda) : Prop where
  isLocal : ∀ item ∈ a.items, item.isLocal
  visited : ∀ n s, (n, s) ∈ a.dues → n ∈ a.visited
  nodup : a.dues.Nodup

variable {items : List Item} {item : Item} {visited : NameSet} {n : Name}

theorem dues_visits (names : List Name) (items : List Item) (visited : NameSet) :
    dues ⟨names.map .visit ++ items, visited⟩ = dues ⟨items, visited⟩ := by
  induction names with
  | nil => rfl
  | cons n names ih => exact ih

theorem dues_opening (r : Registry) (n : Name) (items : List Item) (visited : NameSet) :
    dues ⟨r.opening n ++ items, visited⟩ =
      (n, .release) :: (n, .inside) :: (n, .forget) :: dues ⟨items, visited⟩ := by
  rw [Registry.opening, List.append_assoc, dues_visits]
  rfl

theorem release_due {a : Agenda} {n : Name} :
    (n, .release) ∈ a.dues ↔ ∃ handle, .release n handle ∈ a.items := by
  rw [dues, List.mem_filterMap]
  refine ⟨fun ⟨item, hi, due⟩ => ?_, fun ⟨handle, hi⟩ => ⟨_, hi, rfl⟩⟩
  cases item with
  | release m handle =>
    obtain ⟨rfl, -⟩ := Prod.mk.inj (Option.some.inj due)
    exact ⟨handle, hi⟩
  | _ => simp [Item.due?] at due

theorem dues_cons {s : Stage} (h : item.due? = some (n, s)) :
    dues ⟨item :: items, visited⟩ = (n, s) :: dues ⟨items, visited⟩ :=
  List.filterMap_cons_some h

namespace Orderly

theorem tail (h : Orderly ⟨item :: items, visited⟩) : Orderly ⟨items, visited⟩ := by
  have fewer : (dues ⟨items, visited⟩).Sublist (dues ⟨item :: items, visited⟩) :=
    (List.sublist_cons_self item items).filterMap _
  exact ⟨fun i hi => h.isLocal i (List.mem_cons_of_mem _ hi),
    fun n s hn => h.visited n s (fewer.subset hn), h.nodup.sublist fewer⟩

theorem visits (h : Orderly ⟨items, visited⟩) (names : List Name) :
    Orderly ⟨names.map .visit ++ items, visited⟩ := by
  refine ⟨fun i hi => ?_, fun n s hn => h.visited n s ?_, ?_⟩
  · rcases List.mem_append.mp hi with new | old
    · obtain ⟨n, -, rfl⟩ := List.mem_map.mp new
      rfl
    · exact h.isLocal i old
  · rwa [dues_visits] at hn
  · rw [dues_visits]
    exact h.nodup

theorem opening (h : Orderly ⟨items, visited⟩) (r : Registry) (fresh : n ∉ visited) :
    Orderly ⟨r.opening n ++ items, visited.insert n⟩ := by
  have unlisted (s : Stage) : (n, s) ∉ dues ⟨items, visited⟩ := fun hs => fresh (h.visited n s hs)
  refine ⟨fun i hi => ?_, fun m s hm => ?_, ?_⟩
  · rcases List.mem_append.mp hi with new | old
    · simp only [Registry.opening, List.mem_append, List.mem_map, List.mem_cons,
        List.not_mem_nil, or_false] at new
      rcases new with ⟨m, -, rfl⟩ | rfl | rfl | rfl <;> rfl
    · exact h.isLocal i old
  · rw [dues_opening, List.mem_cons, List.mem_cons, List.mem_cons] at hm
    show m ∈ visited.insert n
    rw [NameSet.mem_insert]
    rcases hm with hm | hm | hm | hm
    · exact .inl (Prod.mk.inj hm).1
    · exact .inl (Prod.mk.inj hm).1
    · exact .inl (Prod.mk.inj hm).1
    · exact .inr (h.visited m s hm)
  · have nodup : (dues ⟨items, visited.insert n⟩).Nodup := h.nodup
    rw [dues_opening]
    simp only [List.nodup_cons, List.mem_cons, Prod.mk.injEq, reduceCtorEq, and_false, false_or]
    exact ⟨unlisted _, unlisted _, unlisted _, nodup⟩

end Orderly

/-- Once nothing is left to do, every name visited is past every stage. -/
theorem past_iff_of_done {a : Agenda} (done : a.items = []) (k : Name) (s : Stage) :
    a.Past k s ↔ k ∈ a.visited := by
  refine ⟨And.left, fun hk => ⟨hk, ?_⟩⟩
  simp [dues, done]

theorem past_visits (names : List Name) (k : Name) (s : Stage) :
    Past ⟨names.map .visit ++ items, visited⟩ k s ↔ Past ⟨items, visited⟩ k s := by
  rw [Past, dues_visits, Past]

theorem past_opening (r : Registry) (fresh : n ∉ visited) (k : Name) (s : Stage) :
    Past ⟨r.opening n ++ items, visited.insert n⟩ k s ↔ Past ⟨items, visited⟩ k s := by
  have same : dues ⟨items, visited.insert n⟩ = dues ⟨items, visited⟩ := rfl
  simp only [Past, dues_opening, same, NameSet.mem_insert, List.mem_cons, not_or, Prod.mk.injEq]
  cases s <;> grind

theorem not_past_cons {s : Stage} (due : item.due? = some (n, s)) :
    ¬ Past ⟨item :: items, visited⟩ n s := by
  rintro ⟨-, done⟩
  rw [dues_cons due] at done
  exact done List.mem_cons_self

theorem past_other {s t : Stage} (due : item.due? = some (n, s)) (other : t ≠ s) (k : Name) :
    Past ⟨items, visited⟩ k t ↔ Past ⟨item :: items, visited⟩ k t := by
  simp only [Past, dues_cons due, List.mem_cons, not_or, Prod.mk.injEq]
  simp [other]

/-- What is done for a name brings it past that stage, and no other name. -/
theorem Orderly.past_own {s : Stage} (h : Orderly ⟨item :: items, visited⟩)
    (due : item.due? = some (n, s)) (k : Name) :
    Past ⟨items, visited⟩ k s ↔ Past ⟨item :: items, visited⟩ k s ∨ k = n := by
  obtain ⟨-, visited, nodup⟩ := h
  have known := visited n s
  rw [dues_cons due] at nodup known
  obtain ⟨once, -⟩ := List.nodup_cons.mp nodup
  have here := known List.mem_cons_self
  simp only [Past, dues_cons due, List.mem_cons, not_or, Prod.mk.injEq]
  grind

namespace Meets

theorem revisit {m : Name} (seen : n ∈ visited) (h : Meets ⟨.visit n :: items, visited⟩ m) :
    Meets ⟨items, visited⟩ m := by
  rcases h with h | h
  · exact .inl h
  · rcases List.mem_cons.mp h with h | h
    · obtain rfl := Item.visit.inj h
      exact .inl seen
    · exact .inr h

theorem opening {m : Name} (r : Registry) (h : Meets ⟨.visit n :: items, visited⟩ m) :
    Meets ⟨r.opening n ++ items, visited.insert n⟩ m := by
  rcases h with h | h
  · exact .inl ((visited.mem_insert n m).mpr (.inr h))
  · rcases List.mem_cons.mp h with h | h
    · exact .inl ((visited.mem_insert n m).mpr (.inl (Item.visit.inj h)))
    · exact .inr (List.mem_append_right _ h)

theorem tail {m : Name} {due : Name × Stage} (hi : item.due? = some due)
    (h : Meets ⟨item :: items, visited⟩ m) : Meets ⟨items, visited⟩ m := by
  rcases h with h | h
  · exact .inl h
  · rcases List.mem_cons.mp h with rfl | h
    · cases hi
    · exact .inr h

theorem visits {m : Name} (names : List Name) (h : Meets ⟨items, visited⟩ m) :
    Meets ⟨names.map .visit ++ items, visited⟩ m :=
  h.imp id (List.mem_append_right _)

end Meets

end Agenda

end Singletons
