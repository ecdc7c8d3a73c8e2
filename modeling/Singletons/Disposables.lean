import Singletons.Callback
/-!
# Release handles

The handles to call when names are destroyed, in the order in which the names got one. Giving a
name another handle keeps its place.
-/

namespace Singletons

structure Disposables where
  entries : List (Name × Handle) := []

namespace Disposables

def names (d : Disposables) : List Name := d.entries.map (·.1)

def handle? (d : Disposables) (n : Name) : Option Handle := d.entries.lookup n

def contains (d : Disposables) (n : Name) : Bool := (d.handle? n).isSome

/-- Puts a handle in the place of the name, or at the end if it has none. -/
def place (n : Name) (h : Handle) : List (Name × Handle) → List (Name × Handle)
  | [] => [(n, h)]
  | e :: rest => if e.1 = n then (n, h) :: rest else e :: place n h rest

def insert (d : Disposables) (n : Name) (h : Handle) : Disposables := ⟨place n h d.entries⟩

def erase (d : Disposables) (n : Name) : Disposables := ⟨d.entries.filter (·.1 ≠ n)⟩

theorem handle?_insert (d : Disposables) (n m : Name) (h : Handle) :
    (d.insert n h).handle? m = if m = n then some h else d.handle? m := by
  obtain ⟨es⟩ := d
  simp only [insert, handle?]
  induction es with
  | nil => grind [place]
  | cons e es ih => grind [place]

theorem handle?_erase (d : Disposables) (n m : Name) :
    (d.erase n).handle? m = if m = n then none else d.handle? m := by
  obtain ⟨es⟩ := d
  induction es with
  | nil => simp [erase, handle?]
  | cons e es ih => grind [erase, handle?]

/-- A new name comes last; a known one stays where it is. -/
theorem names_insert (d : Disposables) (n : Name) (h : Handle) :
    (d.insert n h).names = if n ∈ d.names then d.names else d.names ++ [n] := by
  obtain ⟨es⟩ := d
  simp only [insert, names]
  induction es with
  | nil => simp [place]
  | cons e es ih => grind [place]

theorem names_erase (d : Disposables) (n : Name) : (d.erase n).names = d.names.filter (· ≠ n) := by
  simp [erase, names, List.filter_map, Function.comp_def]

end Disposables

end Singletons
