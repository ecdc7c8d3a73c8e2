import Singletons.Proofs.Teardown.Closure
/-!
# Teardown by recursion

Destroying a name can be told as a recursion that does not remember where it has been. Every edge is
detached before it is followed, so the recursion ends, and when it comes back to a name it finds
nothing that leads further. The teardown, which keeps an agenda and skips the names that it has
visited, comes to the same.
-/

namespace Singletons

theorem NameSet.forall_mem_insert {names : NameSet} {p : Name → Prop} {n : Name} (hn : p n)
    (h : ∀ m, m ∈ names → p m) : ∀ m, m ∈ names.insert n → p m := by
  intro m hm
  rcases (names.mem_insert n m).mp hm with rfl | hm
  · exact hn
  · exact h m hm

/-- A point of a recursive destruction, with the handles released so far, the oldest first. -/
structure Unwinding where
  registry : Registry
  released : List (Name × Handle) := []

namespace Unwinding

def dependents (s : Unwinding) (n : Name) : List Name := s.registry.graph.dependentsOf n

def contents (s : Unwinding) (n : Name) : List Name := s.registry.graph.containedIn n

def handle (s : Unwinding) (n : Name) : Handle := (s.registry.disposables.handle? n).getD .null

def withdraw (s : Unwinding) (n : Name) : Unwinding :=
  { s with registry := s.registry.withdraw n }

/-- Releases a name with its handle. The callbacks that are called end as `ends` says, the first one
as `ends 0`. -/
def release (ends : Nat → Except Thrown Returned) (s : Unwinding) (n : Name) : Handle → Unwinding
  | .null => s
  | .idle => { s with released := s.released ++ [(n, .idle)] }
  | .callback id =>
    { registry := { s.registry with
        releaseFaults := Registry.recorded s.registry.config.limit s.registry.releaseFaults n
          (ends (Handle.callsIn s.released).length) }
      released := s.released ++ [(n, .callback id)] }

def empty (s : Unwinding) (n : Name) : Unwinding :=
  { s with registry := { s.registry with graph := s.registry.graph.detachContained n } }

def forget (s : Unwinding) (n : Name) : Unwinding :=
  { s with registry :=
      { s.registry with graph := (s.registry.graph.scrub n).removeDependencies n } }

/-- A bound for the edges that are left to follow. -/
def edges (s : Unwinding) : Nat :=
  Graph.edges s.registry.graph.dependents + Graph.edges s.registry.graph.contained

theorem edges_withdraw (s : Unwinding) (n : Name) :
    (s.withdraw n).edges + (s.dependents n).length = s.edges := by
  have detached := Graph.edges_erase s.registry.graph.dependents n
  simp only [edges, withdraw, dependents, Registry.withdraw, Graph.detachDependents,
    Graph.dependentsOf]
  omega

theorem edges_release (ends : Nat → Except Thrown Returned) (s : Unwinding) (n : Name)
    (handle : Handle) : (s.release ends n handle).edges = s.edges := by
  cases handle <;> rfl

theorem edges_empty (s : Unwinding) (n : Name) :
    (s.empty n).edges + (s.contents n).length = s.edges := by
  have detached := Graph.edges_erase s.registry.graph.contained n
  simp only [edges, empty, contents, Graph.detachContained, Graph.containedIn]
  omega

theorem edges_forget_le (s : Unwinding) (n : Name) : (s.forget n).edges ≤ s.edges :=
  Nat.add_le_add_right (s.registry.graph.edges_scrub_le n) _

end Unwinding

/-- Names are destroyed by recursion, one after the other. A name is withdrawn and its dependents
are destroyed; it is released, and what it contained is destroyed; it is forgotten. -/
inductive Unwinds (ends : Nat → Except Thrown Returned) :
    Unwinding → List Name → Unwinding → Prop
  | nil {s} : Unwinds ends s [] s
  | cons {s s₁ s₂ s₃ n rest}
    (dependents : Unwinds ends (s.withdraw n) (s.dependents n) s₁)
    (contents : Unwinds ends ((s₁.release ends n (s.handle n)).empty n)
      ((s₁.release ends n (s.handle n)).contents n) s₂)
    (others : Unwinds ends (s₂.forget n) rest s₃) :
    Unwinds ends s (n :: rest) s₃

/-- One callback more is one failure more at most. -/
theorem Registry.recordedAll_concat (ends : Nat → Except Thrown Returned) (limit : Nat)
    (faults : List Fault) (calls : List (Name × CallbackId)) (call : Name × CallbackId) :
    recordedAll limit faults (calls ++ [call]) ((List.range (calls ++ [call]).length).map ends) =
      recorded limit (recordedAll limit faults calls ((List.range calls.length).map ends)) call.1
        (ends calls.length) := by
  have same : calls.length = ((List.range calls.length).map ends).length := by simp
  rw [List.length_append, List.length_singleton, List.range_succ, List.map_append,
    recordedAll_append limit faults same]
  rfl

section Recursion

variable {ends : Nat → Except Thrown Returned}

/-- The recursion has one way to go. -/
theorem Unwinds.unique {s s₁ s₂ : Unwinding} {names : List Name} (h : Unwinds ends s names s₁)
    (k : Unwinds ends s names s₂) : s₁ = s₂ := by
  induction h generalizing s₂ with
  | nil =>
    cases k
    rfl
  | cons _ _ _ ihd ihc iho =>
    cases k with
    | cons dependents contents others =>
      obtain rfl := ihd dependents
      obtain rfl := ihc contents
      exact iho others

/-- The recursion ends. What it spends on a list of names are the names, and for each edge that it
follows the edge itself, which no longer leads anywhere then. -/
theorem exists_unwinds (ends : Nat → Except Thrown Returned) (s : Unwinding) (names : List Name) :
    ∃ s', Unwinds ends s names s' ∧ s'.edges ≤ s.edges := by
  induction h : 2 * s.edges + names.length using Nat.strongRecOn generalizing s names with
  | ind k ih =>
    cases names with
    | nil => exact ⟨s, .nil, le_rfl⟩
    | cons n rest =>
      rw [List.length_cons] at h
      have withdrawn := s.edges_withdraw n
      obtain ⟨s₁, dependents, fewer₁⟩ :=
        ih (2 * (s.withdraw n).edges + (s.dependents n).length) (by omega) _ _ rfl
      let t := s₁.release ends n (s.handle n)
      have released : t.edges = s₁.edges := s₁.edges_release ends n (s.handle n)
      have emptied := t.edges_empty n
      obtain ⟨s₂, contents, fewer₂⟩ :=
        ih (2 * (t.empty n).edges + (t.contents n).length) (by omega) _ _ rfl
      have forgotten := s₂.edges_forget_le n
      obtain ⟨s₃, others, fewer₃⟩ :=
        ih (2 * (s₂.forget n).edges + rest.length) (by omega) _ _ rfl
      exact ⟨s₃, .cons dependents contents others, by omega⟩

namespace Dismantling

/-- A recursion that began at the registry `r` has come as far as a teardown. It has released the
same. Of the names visited it has taken out as much, or more: where it comes back to a name that is
still being torn down, it empties and forgets it ahead of time. -/
structure Shadows (ends : Nat → Except Thrown Returned) (r : Registry) (d : Dismantling)
    (s : Unwinding) : Prop where
  underway : Underway r d
  released : s.released = d.released
  faults : s.registry.releaseFaults = Registry.recordedAll r.config.limit r.releaseFaults
    (Handle.callsIn d.released) ((List.range (Handle.callsIn d.released).length).map ends)
  leaves : ∃ emptied forgotten,
    r.Stripped d.visited emptied forgotten { s.registry with releaseFaults := r.releaseFaults } ∧
    (∀ n, n ∈ emptied → n ∈ d.visited) ∧ (∀ n, n ∈ forgotten → n ∈ d.visited) ∧
    (∀ n, d.agenda.Past n .inside → n ∈ emptied) ∧ ∀ n, d.agenda.Past n .forget → n ∈ forgotten

namespace Shadows

variable {r r' : Registry} {n : Name} {rest : List Agenda.Item} {visited : NameSet}
  {released : List (Name × Handle)} {s : Unwinding}

theorem start (ends : Nat → Except Thrown Returned) (r : Registry) (n : Name) :
    Shadows ends r ⟨r, [.visit n], ∅, []⟩ ⟨r, []⟩ where
  underway := .start r n
  released := rfl
  faults := rfl
  leaves := by
    refine ⟨∅, ∅, .refl r, fun _ => id, fun _ => id, fun k past => ?_, fun k past => ?_⟩
    · exact absurd past.1 Std.ExtTreeSet.not_mem_empty
    · exact absurd past.1 Std.ExtTreeSet.not_mem_empty

theorem limit {d : Dismantling} (h : Shadows ends r d s) :
    s.registry.config.limit = r.config.limit := by
  obtain ⟨_, _, stripped, -⟩ := h.leaves
  exact congrArg (·.config.limit) stripped.frame

/-- For a name that is visited the recursion finds the handle that the teardown finds. -/
theorem handle_eq (h : Shadows ends r ⟨r', .visit n :: rest, visited, released⟩ s) :
    s.handle n = (r'.disposables.handle? n).getD .null := by
  obtain ⟨_, _, stripped, -⟩ := h.leaves
  obtain ⟨_, _, stripped', -⟩ := h.underway.leaves
  have held := (stripped.handle? n).trans (stripped'.handle? n).symm
  exact congrArg (·.getD .null) held

/-- For a fresh name the recursion finds the dependents that the teardown finds, without some that
have been visited. -/
theorem dependents_eq (h : Shadows ends r ⟨r', .visit n :: rest, visited, released⟩ s)
    (fresh : n ∉ visited) : ∃ gone : NameSet, (∀ m, m ∈ gone → m ∈ visited) ∧
      s.dependents n = (r'.graph.dependentsOf n).filter (· ∉ gone) := by
  obtain ⟨_, gone, stripped, -, within, -, past⟩ := h.leaves
  obtain ⟨_, gone', stripped', -, past'⟩ := h.underway.leaves
  refine ⟨gone, within, Graph.members_eq_filter fun m => ?_⟩
  have mine : m ∈ s.dependents n ↔ n ∉ visited ∧ m ∉ gone ∧ m ∈ r.graph.dependentsOf n :=
    stripped.dependents n m
  have other : m ∈ r'.graph.dependentsOf n ↔
      n ∉ visited ∧ m ∉ gone' ∧ m ∈ r.graph.dependentsOf n := stripped'.dependents n m
  have fewer : m ∈ gone' → m ∈ gone := fun hm => past m ((past' m).mp hm)
  show m ∈ s.dependents n ↔ m ∈ r'.graph.dependentsOf n ∧ _
  rw [mine, other, decide_eq_true_iff]
  grind

theorem visit (h : Shadows ends r ⟨r', .visit n :: rest, visited, released⟩ s)
    (fresh : n ∉ visited) : Shadows ends r
      ⟨r'.withdraw n, r'.opening n ++ rest, visited.insert n, released⟩ (s.withdraw n) where
  underway := h.underway.visit fresh
  released := h.released
  faults := h.faults
  leaves := by
    obtain ⟨emptied, forgotten, stripped, hemptied, hforgotten, inside, past⟩ := h.leaves
    have same (k : Name) (t : Stage) : Agenda.Past ⟨r'.opening n ++ rest, visited.insert n⟩ k t ↔
        Agenda.Past ⟨rest, visited⟩ k t := Agenda.past_opening r' fresh k t
    refine ⟨emptied, forgotten, stripped.withdraw n, fun k hk => ?_, fun k hk => ?_,
      fun k hk => inside k ((same k .inside).mp hk), fun k hk => past k ((same k .forget).mp hk)⟩
    · exact (visited.mem_insert n k).mpr (.inr (hemptied k hk))
    · exact (visited.mem_insert n k).mpr (.inr (hforgotten k hk))

/-- What the recursion does when it comes back to a name leaves it where it is. -/
theorem again {d : Dismantling} (h : Shadows ends r d s) (seen : n ∈ d.visited) :
    Shadows ends r d (((s.withdraw n).empty n).forget n) where
  underway := h.underway
  released := h.released
  faults := h.faults
  leaves := by
    obtain ⟨emptied, forgotten, stripped, hemptied, hforgotten, inside, past⟩ := h.leaves
    have same : d.visited.insert n = d.visited := Std.ExtTreeSet.ext_mem fun k =>
      ⟨NameSet.forall_mem_insert seen (fun _ => id) k,
        fun hk => (d.visited.mem_insert n k).mpr (.inr hk)⟩
    have struck := ((stripped.withdraw n).empty n).forget n
    rw [same] at struck
    exact ⟨emptied.insert n, forgotten.insert n, struck,
      NameSet.forall_mem_insert seen hemptied, NameSet.forall_mem_insert seen hforgotten,
      fun k hk => (emptied.mem_insert n k).mpr (.inr (inside k hk)),
      fun k hk => (forgotten.mem_insert n k).mpr (.inr (past k hk))⟩

theorem revisit (h : Shadows ends r ⟨r', .visit n :: rest, visited, released⟩ s)
    (seen : n ∈ visited) : Shadows ends r ⟨r', rest, visited, released⟩ s :=
  ⟨h.underway.revisit seen, h.released, h.faults, h.leaves⟩

theorem release {handle : Handle}
    (h : Shadows ends r ⟨r', .release n handle :: rest, visited, released⟩ s) :
    Shadows ends r ⟨r', rest, visited, released ++ handle.calls n⟩ (s.release ends n handle) := by
  have due : (Agenda.Item.release n handle).due? = some (n, .release) := rfl
  have other (k : Name) (t : Stage) (ht : t ≠ .release) : Agenda.Past ⟨rest, visited⟩ k t ↔
      Agenda.Past ⟨.release n handle :: rest, visited⟩ k t := Agenda.past_other due ht k
  obtain ⟨emptied, forgotten, stripped, hemptied, hforgotten, inside, past⟩ := h.leaves
  have same : { (s.release ends n handle).registry with releaseFaults := r.releaseFaults } =
      { s.registry with releaseFaults := r.releaseFaults } := by
    cases handle <;> rfl
  have grown (call : Name × Handle) : Handle.callsIn (released ++ [call]) =
      Handle.callsIn released ++ Handle.callsIn [call] := List.filterMap_append
  refine ⟨h.underway.release, ?_, ?_, emptied, forgotten, same ▸ stripped, hemptied, hforgotten,
    fun k hk => inside k ((other k .inside nofun).mp hk),
    fun k hk => past k ((other k .forget nofun).mp hk)⟩
  · cases handle with
    | null => exact h.released.trans (List.append_nil _).symm
    | idle => exact congrArg (· ++ _) h.released
    | callback id => exact congrArg (· ++ _) h.released
  · cases handle with
    | null =>
      rw [Handle.calls, List.append_nil]
      exact h.faults
    | idle =>
      have uncalled : Handle.callsIn [(n, .idle)] = [] := rfl
      rw [Handle.calls, grown, uncalled, List.append_nil]
      exact h.faults
    | callback id =>
      have called : Handle.callsIn [(n, .callback id)] = [(n, id)] := rfl
      have alike : s.released = released := h.released
      rw [Handle.calls, grown, called, Registry.recordedAll_concat, ← h.faults, ← h.limit, ← alike]
      rfl

theorem empty (h : Shadows ends r ⟨r', .inside n :: rest, visited, released⟩ s) :
    Shadows ends r ⟨{ r' with graph := r'.graph.detachContained n },
      (r'.graph.containedIn n).map .visit ++ rest, visited, released⟩ (s.empty n) where
  underway := h.underway.empty
  released := h.released
  faults := h.faults
  leaves := by
    obtain ⟨emptied, forgotten, stripped, hemptied, hforgotten, inside, past⟩ := h.leaves
    have due : (Agenda.Item.inside n).due? = some (n, .inside) := rfl
    have own (k : Name) := (Agenda.past_visits (r'.graph.containedIn n) k _).trans
      (h.underway.orderly.past_own due k)
    have other (k : Name) (t : Stage) (ht : t ≠ .inside) :
        Agenda.Past ⟨(r'.graph.containedIn n).map .visit ++ rest, visited⟩ k t ↔
          Agenda.Past ⟨.inside n :: rest, visited⟩ k t :=
      (Agenda.past_visits _ k t).trans (Agenda.past_other due ht k)
    have seen : n ∈ visited := h.underway.orderly.visited n .inside List.mem_cons_self
    exact ⟨emptied.insert n, forgotten, stripped.empty n, NameSet.forall_mem_insert seen hemptied,
      hforgotten, fun k hk => (emptied.mem_insert n k).mpr (((own k).mp hk).symm.imp id (inside k)),
      fun k hk => past k ((other k .forget nofun).mp hk)⟩

theorem forget (h : Shadows ends r ⟨r', .forget n :: rest, visited, released⟩ s) :
    Shadows ends r ⟨{ r' with graph := (r'.graph.scrub n).removeDependencies n }, rest, visited,
      released⟩ (s.forget n) where
  underway := h.underway.forget
  released := h.released
  faults := h.faults
  leaves := by
    obtain ⟨emptied, forgotten, stripped, hemptied, hforgotten, inside, past⟩ := h.leaves
    have due : (Agenda.Item.forget n).due? = some (n, .forget) := rfl
    have other (k : Name) (t : Stage) (ht : t ≠ .forget) : Agenda.Past ⟨rest, visited⟩ k t ↔
        Agenda.Past ⟨.forget n :: rest, visited⟩ k t := Agenda.past_other due ht k
    have seen : n ∈ visited := h.underway.orderly.visited n .forget List.mem_cons_self
    refine ⟨emptied, forgotten.insert n, stripped.forget n, hemptied,
      NameSet.forall_mem_insert seen hforgotten,
      fun k hk => inside k ((other k .inside nofun).mp hk), fun k hk => ?_⟩
    have own := (h.underway.orderly.past_own due k).mp hk
    exact (forgotten.mem_insert n k).mpr (own.symm.imp id (past k))

/-- A name that is visited leads the recursion nowhere. -/
theorem dependents_seen {d : Dismantling} (h : Shadows ends r d s) (seen : n ∈ d.visited) :
    s.dependents n = [] := by
  obtain ⟨_, _, stripped, -⟩ := h.leaves
  refine List.eq_nil_iff_forall_not_mem.mpr fun m hm => ?_
  exact ((stripped.dependents n m).mp hm).1 seen

theorem handle_seen {d : Dismantling} (h : Shadows ends r d s) (seen : n ∈ d.visited) :
    s.handle n = .null := by
  obtain ⟨_, _, stripped, -⟩ := h.leaves
  have held := (stripped.handle? n).trans (if_pos seen)
  exact congrArg (·.getD .null) held

theorem contents_eq_nil {d : Dismantling} (h : Shadows ends r d s)
    (plain : ∀ k, r.graph.containedIn k = []) (k : Name) : s.contents k = [] := by
  obtain ⟨_, _, stripped, -⟩ := h.leaves
  refine List.eq_nil_iff_forall_not_mem.mpr fun m hm => ?_
  have before := ((stripped.mem_containedIn k m).mp hm).2
  rw [plain k] at before
  cases before

/-- When the recursion comes back to a name that is visited, it does not get any further. -/
theorem back {d : Dismantling} {s₁ s₂ : Unwinding} (h : Shadows ends r d s)
    (plain : ∀ k, r.graph.containedIn k = []) (seen : n ∈ d.visited)
    (dependents : Unwinds ends (s.withdraw n) (s.dependents n) s₁)
    (contents : Unwinds ends ((s₁.release ends n (s.handle n)).empty n)
      ((s₁.release ends n (s.handle n)).contents n) s₂) : Shadows ends r d (s₂.forget n) := by
  rw [h.dependents_seen seen] at dependents
  cases dependents
  have nothing : ((s.withdraw n).release ends n .null).contents n = [] := h.contents_eq_nil plain n
  rw [h.handle_seen seen, nothing] at contents
  cases contents
  exact h.again seen

end Shadows

/-- From here a teardown gets to the rest of its agenda, and as far as the recursion has come. -/
def Catches (ends : Nat → Except Thrown Returned) (r : Registry) (d : Dismantling)
    (rest : List Agenda.Item) (s : Unwinding) : Prop :=
  ∃ e, Comes d e ∧ e.items = rest ∧ (∀ n, n ∈ d.visited → n ∈ e.visited) ∧ Shadows ends r e s

/-- Whenever the recursion does so for some names, the teardown does so for them, among others that
it has visited. -/
def Keeps (ends : Nat → Except Thrown Returned) (r : Registry) (s : Unwinding) (names : List Name)
    (s' : Unwinding) : Prop :=
  ∀ (d : Dismantling) (all : List Name) (rest : List Agenda.Item) (gone : NameSet),
    d.items = all.map .visit ++ rest → names = all.filter (· ∉ gone) →
    (∀ n, n ∈ gone → n ∈ d.visited) → Shadows ends r d s → Catches ends r d rest s'

variable {r r' : Registry} {n : Name} {rest : List Agenda.Item} {visited : NameSet}
  {released : List (Name × Handle)} {s s' s₁ s₂ : Unwinding} {d : Dismantling}

theorem Catches.refl (h : Shadows ends r d s) : Catches ends r d d.items s :=
  ⟨d, .refl, rfl, fun _ => id, h⟩

theorem Catches.trans {items : List Agenda.Item} (h : Catches ends r d items s)
    (k : ∀ e, e.items = items → (∀ n, n ∈ d.visited → n ∈ e.visited) → Shadows ends r e s →
      Catches ends r e rest s') : Catches ends r d rest s' := by
  obtain ⟨e, comes, here, grown, shadows⟩ := h
  obtain ⟨f, comes', there, grown', shadows'⟩ := k e here grown shadows
  exact ⟨f, comes.trans comes', there, fun n hn => grown' n (grown n hn), shadows'⟩

/-- The teardown skips names that it has visited. -/
theorem Shadows.skip {names : List Name} (seen : ∀ n ∈ names, n ∈ visited)
    (h : Shadows ends r ⟨r', names.map .visit ++ rest, visited, released⟩ s) :
    Catches ends r ⟨r', names.map .visit ++ rest, visited, released⟩ rest s := by
  induction names with
  | nil => exact .refl h
  | cons n names ih =>
    obtain ⟨here, there⟩ := List.forall_mem_cons.mp seen
    obtain ⟨e, comes, after⟩ := ih there (h.revisit here)
    exact ⟨e, comes.head (.revisit here), after⟩

/-- A name that is visited first is torn down as the recursion does it. -/
theorem Shadows.through (h : Shadows ends r ⟨r', .visit n :: rest, visited, released⟩ s)
    (plain : ∀ k, r.graph.containedIn k = []) (fresh : n ∉ visited)
    (dependents : Keeps ends r (s.withdraw n) (s.dependents n) s₁)
    (contents : Keeps ends r ((s₁.release ends n (s.handle n)).empty n)
      ((s₁.release ends n (s.handle n)).contents n) s₂) :
    Catches ends r ⟨r', .visit n :: rest, visited, released⟩ rest (s₂.forget n) := by
  obtain ⟨gone, within, filtered⟩ := h.dependents_eq fresh
  let opened : Dismantling := ⟨r'.withdraw n, r'.opening n ++ rest, visited.insert n, released⟩
  have grown {m : Name} (hm : m ∈ visited) : m ∈ visited.insert n :=
    (visited.mem_insert n m).mpr (.inr hm)
  have first :
      Catches ends r opened (.release n (s.handle n) :: .inside n :: .forget n :: rest) s₁ := by
    refine dependents opened (r'.graph.dependentsOf n) _ gone ?_ filtered
      (fun m hm => grown (within m hm)) (h.visit fresh)
    rw [h.handle_eq]
    exact List.append_assoc _ _ _
  have last : Catches ends r opened rest (s₂.forget n) := by
    refine first.trans fun e he _ shadows => ?_
    obtain ⟨r₁, _, visited₁, released₁⟩ := e
    obtain rfl := he
    have called := shadows.release
    have empty : r₁.graph.containedIn n = [] :=
      List.eq_nil_iff_forall_not_mem.mpr fun m hm => by
        have before := called.underway.mem_containedIn.mp hm
        rw [plain n] at before
        cases before
    have nothing : (s₁.release ends n (s.handle n)).contents n =
        (r₁.graph.containedIn n).filter (· ∉ (∅ : NameSet)) := by
      rw [called.contents_eq_nil plain, empty, List.filter_nil]
    have inside := contents _ _ (.forget n :: rest) ∅ rfl nothing
      (fun m hm => absurd hm Std.ExtTreeSet.not_mem_empty) called.empty
    obtain ⟨⟨r₂, _, visited₂, released₂⟩, comes, rfl, grown', forgets⟩ := inside
    exact ⟨_, ((comes.head .inside).head .release).tail .forget, rfl, grown', forgets.forget⟩
  obtain ⟨e, comes, here, seen, shadows⟩ := last
  exact ⟨e, comes.head (.visit fresh), here, fun m hm => seen m (grown hm), shadows⟩

/-- What the recursion does for some names the teardown does for them. -/
theorem keeps_of_unwinds (plain : ∀ k, r.graph.containedIn k = []) {names : List Name}
    (h : Unwinds ends s names s') : Keeps ends r s names s' := by
  induction h with
  | nil =>
    rintro ⟨r', items, visited, released⟩ all rest gone rfl same within shadows
    refine shadows.skip fun n hn => within n ?_
    simpa using List.filter_eq_nil_iff.mp same.symm n hn
  | @cons s s₁ s₂ s₃ n names dependents contents _ ihd ihc iho =>
    rintro ⟨r', items, visited, released⟩ all rest gone rfl same within shadows
    obtain ⟨skipped, others, rfl, hskipped, -, left⟩ := List.filter_eq_cons_iff.mp same.symm
    let here : Dismantling := ⟨r', (skipped ++ n :: others).map .visit ++ rest, visited, released⟩
    have skips : Catches ends r here (.visit n :: (others.map .visit ++ rest)) s := by
      simp only [here, List.map_append, List.append_assoc] at shadows ⊢
      refine shadows.skip fun m hm => within m ?_
      simpa using hskipped m hm
    have own : Catches ends r here (others.map .visit ++ rest) (s₂.forget n) := by
      refine skips.trans fun e he _ shadows => ?_
      obtain ⟨r₁, _, visited₁, released₁⟩ := e
      obtain rfl := he
      by_cases seen : n ∈ visited₁
      · exact ⟨_, .single (.revisit seen), rfl, fun _ => id,
          (shadows.revisit seen).back plain seen dependents contents⟩
      · exact shadows.through plain seen ihd ihc
    exact own.trans fun e he grown shadows =>
      iho e others rest gone he left.symm (fun m hm => grown m (within m hm)) shadows

/-- Once the teardown is done, what is left is the same but for the failures that are recorded. -/
theorem Shadows.registry_eq (h : Shadows ends r d s) (done : d.items = []) (some : n ∈ d.visited) :
    d.registry = { s.registry with releaseFaults := r.releaseFaults } := by
  obtain ⟨emptied, forgotten, stripped, hemptied, hforgotten, inside, past⟩ := h.leaves
  have all (k : Name) (t : Stage) (hk : k ∈ d.visited) : d.agenda.Past k t :=
    (Agenda.past_iff_of_done done k t).mpr hk
  have wholly : emptied = d.visited ∧ forgotten = d.visited :=
    ⟨Std.ExtTreeSet.ext_mem fun k => ⟨hemptied k, fun hk => inside k (all k _ hk)⟩,
      Std.ExtTreeSet.ext_mem fun k => ⟨hforgotten k, fun hk => past k (all k _ hk)⟩⟩
  rw [wholly.1, wholly.2] at stripped
  exact (h.underway.torn done).cleared.unique stripped ⟨n, some⟩

/-- A recursion whose callbacks end as those of the teardown comes to what the teardown comes to. -/
theorem exists_unwinds_of_comes (ends : Nat → Except Thrown Returned)
    (plain : ∀ k, r.graph.containedIn k = [])
    (h : Comes ⟨r, [.visit n], ∅, []⟩ d) (done : d.items = []) :
    ∃ s, Unwinds ends ⟨r, []⟩ [n] s ∧ s.released = d.released ∧
      s.registry = { d.registry with
        releaseFaults :=
          Registry.recordedAll r.config.limit r.releaseFaults (Handle.callsIn d.released)
            ((List.range (Handle.callsIn d.released).length).map ends) } := by
  obtain ⟨s, unwinds, -⟩ := exists_unwinds ends ⟨r, []⟩ [n]
  obtain ⟨e, comes, done', -, shadows⟩ := keeps_of_unwinds plain unwinds _ [n] [] ∅ rfl rfl
    (fun m hm => absurd hm Std.ExtTreeSet.not_mem_empty) (.start ends r n)
  obtain rfl := h.done_unique comes done done'
  have root : n ∈ d.visited := ((torn_of_comes h done).2 n).mpr .refl
  refine ⟨s, unwinds, shadows.released, ?_⟩
  rw [shadows.registry_eq done root, ← shadows.faults]

end Dismantling

namespace Session

variable {env : Environment} {w : World}

open Dismantling in
/-- The teardown of a name that keeps an agenda and the names visited implements the recursion that
keeps neither. Where nothing is contained in anything and no release callback reaches back into the
registry, the recursion ends, however the callbacks end, and there is one thing it comes to. If its
callbacks end as those do that destroying the name calls, it releases the same handles in the same
order and leaves the same registry, the failures recorded included. -/
theorem destroy_unwinds (quiet : env.Quiet w.registry)
    (plain : ∀ k, w.registry.graph.containedIn k = []) (n : Name) :
    (∀ ends, ∃! s, Unwinds ends ⟨w.registry, []⟩ [n] s) ∧
      ∃ w' released events, Event.Releases events released ∧
        Leads env w (.perform (.registry (.destroy n))) w' (.answered (.ok .nothing)) events ∧
        ∀ ends : Nat → Except Thrown Returned,
          (∀ i ended, (events.filterMap Event.ending?)[i]? = some ended → ends i = ended) →
          Unwinds ends ⟨w.registry, []⟩ [n] ⟨w'.registry, released⟩ := by
  refine ⟨fun ends => ?_, ?_⟩
  · obtain ⟨s, unwinds, -⟩ := exists_unwinds ends ⟨w.registry, []⟩ [n]
    exact ⟨s, unwinds, fun _ other => other.unique unwinds⟩
  · obtain ⟨e, comes, done⟩ := exists_comes_done ⟨w.registry, [.visit n], ∅, []⟩
    have starts : w.registry.request (.destroy n) =
        { registry := w.registry, progress := .tearing ⟨[.root n], ∅⟩ } := rfl
    have calm : Dismantling.Quiet env ⟨w.registry, [.root n], ∅, []⟩ := ⟨quiet, by simp⟩
    obtain ⟨w', events, endings, releases, ended, length, leads, registry⟩ :=
      exists_answered_of_comes starts rfl rfl calm (comes.head .root) done
    refine ⟨w', e.released, events, releases, leads, fun ends agree => ?_⟩
    obtain ⟨⟨final, released⟩, unwinds, same, left⟩ :=
      exists_unwinds_of_comes ends plain comes done
    have told : (List.range (Handle.callsIn e.released).length).map ends = endings := by
      refine List.ext_getElem (by simpa using length) fun i _ hi => ?_
      rw [List.getElem_map, List.getElem_range]
      exact agree i _ (by rw [ended, List.getElem?_eq_getElem hi])
    rw [told] at left
    obtain rfl : released = e.released := same
    obtain rfl : final = w'.registry := left.trans registry.symm
    exact unwinds

/-- Two names that depend on each other, one of them on itself too: the recursion comes to what
destroying one of them comes to. -/
theorem destroy_unwinds_knot :
    ∃ (env : Environment) (w w' : World) (s : Unwinding) (events : List Event)
      (ends : Nat → Except Thrown Returned),
      env.Quiet w.registry ∧ (∀ k, w.registry.graph.containedIn k = []) ∧
      w.registry.graph.dependentsOf "a" = ["a", "b"] ∧
      w.registry.graph.dependentsOf "b" = ["a"] ∧
      Unwinds ends ⟨w.registry, []⟩ ["a"] s ∧ Event.Releases events s.released ∧
      Leads env w (.perform (.registry (.destroy "a"))) w' (.answered (.ok .nothing)) events ∧
      s.registry = w'.registry := by
  let r : Registry := {
    graph := ((Graph.depend {} "a" "a").depend "a" "b").depend "b" "a"
    disposables := ⟨[("a", .callback "f"), ("b", .callback "g")]⟩ }
  let env : Environment :=
    { body := fun _ _ => .finish (.error (.foreign 0)), host := default }
  have quiet : env.Quiet r := fun _ _ _ _ => trivial
  have plain (k : Name) : r.graph.containedIn k = [] := by
    simp [r, Graph.containedIn, Graph.contained_depend, Graph.members]
  obtain ⟨-, w', released, events, releases, leads, agrees⟩ :=
    destroy_unwinds (w := { registry := r }) quiet plain "a"
  let ends (i : Nat) : Except Thrown Returned :=
    (events.filterMap Event.ending?)[i]?.getD (.error (.foreign 0))
  have told (i : Nat) (ended : Except Thrown Returned)
      (h : (events.filterMap Event.ending?)[i]? = some ended) : ends i = ended := by
    show (events.filterMap Event.ending?)[i]?.getD _ = ended
    rw [h, Option.getD_some]
  exact ⟨env, { registry := r }, w', ⟨w'.registry, released⟩, events, ends, quiet, plain,
    by decide +kernel, by decide +kernel, agrees ends told, releases, leads, rfl⟩

end Session

end Recursion

end Singletons
