import Singletons.Proofs.Teardown.Quiet
import Singletons.Proofs.Teardown.Stages
/-!
# What a teardown tears down

Destroying a name takes out the names that can be reached from it by going from a name to its
dependents and from a container to its parts: these wholly, each once, and no others.
-/

namespace Singletons

/-- The destruction of a name brings about the destruction of another one. -/
def Graph.Pulls (g : Graph) (n m : Name) : Prop := m ∈ g.dependentsOf n ∨ m ∈ g.containedIn n

abbrev Graph.Reaches (g : Graph) : Name → Name → Prop := Relation.ReflTransGen g.Pulls

/-- The name has a handle to be released with. -/
def Registry.Bears (r : Registry) (n : Name) (handle : Handle) : Prop :=
  r.disposables.handle? n = some handle ∧ handle ≠ .null

theorem Registry.bears_iff {r : Registry} {n : Name} {handle : Handle} :
    r.Bears n handle ↔ handle = (r.disposables.handle? n).getD .null ∧ handle ≠ .null := by
  rw [Bears]
  cases r.disposables.handle? n with
  | none => simp
  | some held => simp [eq_comm]

theorem Handle.mem_calls {n m : Name} {handle called : Handle} :
    (m, called) ∈ handle.calls n ↔ m = n ∧ called = handle ∧ handle ≠ .null := by
  cases handle <;> simp [calls]

/-- Calling the handle of a name releases the name if it bears one. -/
theorem Registry.mem_calls {r : Registry} {n m : Name} {handle called : Handle}
    (own : handle = (r.disposables.handle? n).getD .null) :
    (m, called) ∈ handle.calls n ↔ m = n ∧ r.Bears m called := by
  rw [Handle.mem_calls]
  constructor
  · rintro ⟨rfl, rfl, called⟩
    exact ⟨rfl, bears_iff.mpr ⟨own, called⟩⟩
  · rintro ⟨rfl, bears⟩
    obtain ⟨held, called⟩ := bears_iff.mp bears
    obtain rfl := held.trans own.symm
    exact ⟨rfl, rfl, called⟩

theorem Handle.calls_of_ne_null {n : Name} {handle : Handle} (h : handle ≠ .null) :
    handle.calls n = [(n, handle)] := by
  cases handle with
  | null => exact absurd rfl h
  | idle => rfl
  | callback id => rfl

/-- What is left of a registry on the way, by the stages that the names are past. -/
def Agenda.Leaves (a : Agenda) (r r' : Registry) : Prop :=
  ∃ emptied forgotten, r.Stripped a.visited emptied forgotten r' ∧
    (∀ n, n ∈ emptied ↔ a.Past n .inside) ∧ ∀ n, n ∈ forgotten ↔ a.Past n .forget

namespace Dismantling

def agenda (d : Dismantling) : Agenda := ⟨d.items, d.visited⟩

/-- How far the teardown of single names has come that began at the registry `r`. -/
structure Underway (r : Registry) (d : Dismantling) : Prop where
  orderly : d.agenda.Orderly
  leaves : d.agenda.Leaves r d.registry
  dependents : ∀ n ∈ d.visited, ∀ m ∈ r.graph.dependentsOf n, d.agenda.Meets m
  inside : ∀ n, d.agenda.Past n .inside → ∀ m ∈ r.graph.containedIn n, d.agenda.Meets m
  pending : ∀ n handle, .release n handle ∈ d.items →
    handle = (r.disposables.handle? n).getD .null
  released : ∀ n handle, (n, handle) ∈ d.released ↔ d.agenda.Past n .release ∧ r.Bears n handle
  once : (d.released.map (·.1)).Nodup

namespace Underway

variable {r r' : Registry} {n : Name} {rest : List Agenda.Item} {visited : NameSet}
  {released : List (Name × Handle)}

theorem revisit (h : Underway r ⟨r', .visit n :: rest, visited, released⟩) (seen : n ∈ visited) :
    Underway r ⟨r', rest, visited, released⟩ where
  orderly := h.orderly.tail
  leaves := h.leaves
  dependents k hk m hm := (h.dependents k hk m hm).revisit seen
  inside k hk m hm := (h.inside k hk m hm).revisit seen
  pending k handle hk := h.pending k handle (List.mem_cons_of_mem _ hk)
  released := h.released
  once := h.once

/-- A dependent that is no longer filed has been forgotten, so it has been visited. -/
theorem dependent_met (h : Underway r ⟨r', .visit n :: rest, visited, released⟩)
    (fresh : n ∉ visited) {m : Name} (hm : m ∈ r.graph.dependentsOf n) :
    m ∈ r'.graph.dependentsOf n ∨ m ∈ visited := by
  obtain ⟨_, forgotten, stripped, -, hforgotten⟩ := h.leaves
  by_cases gone : m ∈ forgotten
  · exact .inr ((hforgotten m).mp gone).1
  · exact .inl ((stripped.dependents n m).mpr ⟨fresh, gone, hm⟩)

theorem dependents_subset (h : Underway r ⟨r', .visit n :: rest, visited, released⟩) {m : Name}
    (hm : m ∈ r'.graph.dependentsOf n) : m ∈ r.graph.dependentsOf n := by
  obtain ⟨_, _, stripped, -, -⟩ := h.leaves
  exact ((stripped.dependents n m).mp hm).2.2

theorem visit (h : Underway r ⟨r', .visit n :: rest, visited, released⟩) (fresh : n ∉ visited) :
    Underway r ⟨r'.withdraw n, r'.opening n ++ rest, visited.insert n, released⟩ := by
  obtain ⟨emptied, forgotten, stripped, hemptied, hforgotten⟩ := h.leaves
  have past (k : Name) (s : Stage) : Agenda.Past ⟨r'.opening n ++ rest, visited.insert n⟩ k s ↔
      Agenda.Past ⟨rest, visited⟩ k s := Agenda.past_opening r' fresh k s
  refine ⟨h.orderly.tail.opening r' fresh, ?_, ?_, ?_, ?_, ?_, h.once⟩
  · exact ⟨emptied, forgotten, stripped.withdraw n, fun k => (hemptied k).trans (past k _).symm,
      fun k => (hforgotten k).trans (past k _).symm⟩
  · intro k hk m hm
    rcases (visited.mem_insert n k).mp hk with rfl | hk
    · rcases h.dependent_met fresh hm with filed | seen
      · exact .inr (List.mem_append_left _ (Registry.visit_mem_opening.mpr filed))
      · exact .inl ((visited.mem_insert k m).mpr (.inr seen))
    · exact (h.dependents k hk m hm).opening r'
  · exact fun k hk m hm => (h.inside k ((past k _).mp hk) m hm).opening r'
  · intro k handle hk
    rcases List.mem_append.mp hk with new | old
    · obtain ⟨rfl, rfl⟩ := Registry.release_mem_opening.mp new
      have held := (stripped.handle? k).trans (if_neg fresh)
      rw [held]
    · exact h.pending k handle (List.mem_cons_of_mem _ old)
  · intro k handle
    rw [h.released]
    exact and_congr_left' (past k .release).symm

theorem release {handle : Handle}
    (h : Underway r ⟨r', .release n handle :: rest, visited, released⟩) :
    Underway r ⟨r', rest, visited, released ++ handle.calls n⟩ := by
  obtain ⟨emptied, forgotten, stripped, hemptied, hforgotten⟩ := h.leaves
  have due : (Agenda.Item.release n handle).due? = some (n, .release) := rfl
  have other (k : Name) (s : Stage) (hs : s ≠ .release) : Agenda.Past ⟨rest, visited⟩ k s ↔
      Agenda.Past ⟨.release n handle :: rest, visited⟩ k s := Agenda.past_other due hs k
  have own := h.pending n handle List.mem_cons_self
  refine ⟨h.orderly.tail, ?_, ?_, ?_, ?_, ?_, ?_⟩
  · exact ⟨emptied, forgotten, stripped, fun k => (hemptied k).trans (other k .inside nofun).symm,
      fun k => (hforgotten k).trans (other k .forget nofun).symm⟩
  · exact fun k hk m hm => (h.dependents k hk m hm).tail due
  · exact fun k hk m hm => (h.inside k ((other k .inside nofun).mp hk) m hm).tail due
  · exact fun k held hk => h.pending k held (List.mem_cons_of_mem _ hk)
  · intro k called
    have past := h.orderly.past_own due k
    show (k, called) ∈ released ++ handle.calls n ↔ Agenda.Past ⟨rest, visited⟩ k .release ∧ _
    rw [List.mem_append, Registry.mem_calls own, h.released, past, or_and_right]
    rfl
  · have fresh : n ∉ released.map (·.1) := by
      intro hn
      obtain ⟨⟨m, called⟩, hm, rfl⟩ := List.mem_map.mp hn
      exact Agenda.not_past_cons due ((h.released m called).mp hm).1
    rw [List.map_append, List.nodup_append]
    refine ⟨h.once, ?_, ?_⟩
    · cases handle <;> simp [Handle.calls]
    · rintro k hk m hm rfl
      obtain ⟨⟨m, called⟩, hc, rfl⟩ := List.mem_map.mp hm
      obtain ⟨rfl, -⟩ := Handle.mem_calls.mp hc
      exact fresh hk

/-- What a name contained is still filed when it is its turn. -/
theorem mem_containedIn (h : Underway r ⟨r', .inside n :: rest, visited, released⟩) {m : Name} :
    m ∈ r'.graph.containedIn n ↔ m ∈ r.graph.containedIn n := by
  obtain ⟨emptied, _, stripped, hemptied, -⟩ := h.leaves
  rw [stripped.mem_containedIn, hemptied]
  exact and_iff_right (Agenda.not_past_cons rfl)

theorem empty (h : Underway r ⟨r', .inside n :: rest, visited, released⟩) :
    Underway r ⟨{ r' with graph := r'.graph.detachContained n },
      (r'.graph.containedIn n).map .visit ++ rest, visited, released⟩ := by
  obtain ⟨emptied, forgotten, stripped, hemptied, hforgotten⟩ := h.leaves
  have due : (Agenda.Item.inside n).due? = some (n, .inside) := rfl
  have own (k : Name) := (Agenda.past_visits (r'.graph.containedIn n) k _).trans
    (h.orderly.past_own due k)
  have other (k : Name) (s : Stage) (hs : s ≠ .inside) :
      Agenda.Past ⟨(r'.graph.containedIn n).map .visit ++ rest, visited⟩ k s ↔
        Agenda.Past ⟨.inside n :: rest, visited⟩ k s :=
    (Agenda.past_visits _ k s).trans (Agenda.past_other due hs k)
  refine ⟨h.orderly.tail.visits _, ?_, ?_, ?_, ?_, ?_, h.once⟩
  · refine ⟨emptied.insert n, forgotten, stripped.empty n, fun k => ?_,
      fun k => (hforgotten k).trans (other k .forget nofun).symm⟩
    rw [NameSet.mem_insert, hemptied, or_comm]
    exact (own k).symm
  · exact fun k hk m hm => ((h.dependents k hk m hm).tail due).visits _
  · intro k hk m hm
    rcases (own k).mp hk with hk | rfl
    · exact ((h.inside k hk m hm).tail due).visits _
    · exact .inr (List.mem_append_left _ (List.mem_map_of_mem (h.mem_containedIn.mpr hm)))
  · intro k held hk
    rcases List.mem_append.mp hk with new | old
    · simp at new
    · exact h.pending k held (List.mem_cons_of_mem _ old)
  · intro k called
    rw [h.released]
    exact and_congr_left' (other k .release nofun).symm

theorem forget (h : Underway r ⟨r', .forget n :: rest, visited, released⟩) :
    Underway r ⟨{ r' with graph := (r'.graph.scrub n).removeDependencies n }, rest, visited,
      released⟩ := by
  obtain ⟨emptied, forgotten, stripped, hemptied, hforgotten⟩ := h.leaves
  have due : (Agenda.Item.forget n).due? = some (n, .forget) := rfl
  have other (k : Name) (s : Stage) (hs : s ≠ .forget) : Agenda.Past ⟨rest, visited⟩ k s ↔
      Agenda.Past ⟨.forget n :: rest, visited⟩ k s := Agenda.past_other due hs k
  refine ⟨h.orderly.tail, ?_, ?_, ?_, ?_, ?_, h.once⟩
  · refine ⟨emptied, forgotten.insert n, stripped.forget n,
      fun k => (hemptied k).trans (other k .inside nofun).symm, fun k => ?_⟩
    rw [NameSet.mem_insert, hforgotten, or_comm]
    exact (h.orderly.past_own due k).symm
  · exact fun k hk m hm => (h.dependents k hk m hm).tail due
  · exact fun k hk m hm => (h.inside k ((other k .inside nofun).mp hk) m hm).tail due
  · exact fun k held hk => h.pending k held (List.mem_cons_of_mem _ hk)
  · intro k called
    rw [h.released]
    exact and_congr_left' (other k .release nofun).symm

theorem step {d e : Dismantling} (h : Underway r d) (hs : Step d e) : Underway r e := by
  cases hs with
  | root => cases h.orderly.isLocal _ List.mem_cons_self
  | revisit seen => exact h.revisit seen
  | visit fresh => exact h.visit fresh
  | release => exact h.release
  | inside => exact h.empty
  | forget => exact h.forget
  | finish => cases h.orderly.isLocal _ List.mem_cons_self

theorem comes {d e : Dismantling} (h : Underway r d) (hc : Comes d e) : Underway r e := by
  induction hc with
  | refl => exact h
  | tail _ hs ih => exact ih.step hs

theorem start (r : Registry) (n : Name) : Underway r ⟨r, [.visit n], ∅, []⟩ := by
  have none (k : Name) (s : Stage) : ¬ Agenda.Past ⟨[.visit n], ∅⟩ k s :=
    fun hk => Std.ExtTreeSet.not_mem_empty hk.1
  refine ⟨⟨?_, ?_, List.nodup_nil⟩, ⟨∅, ∅, .refl r, ?_, ?_⟩, ?_, ?_, ?_, ?_, List.nodup_nil⟩
  · exact fun item hi => List.mem_singleton.mp hi ▸ rfl
  · exact fun k s hk => nomatch hk
  · exact fun k => iff_of_false Std.ExtTreeSet.not_mem_empty (none k _)
  · exact fun k => iff_of_false Std.ExtTreeSet.not_mem_empty (none k _)
  · exact fun k hk => absurd hk Std.ExtTreeSet.not_mem_empty
  · exact fun k hk => absurd hk (none k _)
  · exact fun k handle hk => nomatch List.mem_singleton.mp hk
  · exact fun k handle => iff_of_false List.not_mem_nil fun hk => none k _ hk.1

variable {d e : Dismantling}

theorem meets_step (h : Underway r d) (hs : Step d e) {m : Name} (hm : d.agenda.Meets m) :
    e.agenda.Meets m := by
  cases hs with
  | root => cases h.orderly.isLocal _ List.mem_cons_self
  | revisit seen => exact hm.revisit seen
  | visit fresh => exact hm.opening _
  | release => exact hm.tail rfl
  | inside => exact (hm.tail rfl).visits _
  | forget => exact hm.tail rfl
  | finish => cases h.orderly.isLocal _ List.mem_cons_self

/-- No name is met that is not brought about by names met before. -/
theorem confined_step {p : Name → Prop} (closed : ∀ n m, p n → r.graph.Pulls n m → p m)
    (h : Underway r d) (hs : Step d e) (hd : ∀ m, d.agenda.Meets m → p m) :
    ∀ m, e.agenda.Meets m → p m := by
  have tail {item : Agenda.Item} {items : List Agenda.Item} {visited : NameSet} {m : Name}
      (hm : Agenda.Meets ⟨items, visited⟩ m) : Agenda.Meets ⟨item :: items, visited⟩ m :=
    hm.imp id (List.mem_cons_of_mem _)
  cases hs with
  | root => cases h.orderly.isLocal _ List.mem_cons_self
  | revisit => exact fun m hm => hd m (tail hm)
  | @visit r' n rest visited released fresh =>
    have here : p n := hd n (.inr List.mem_cons_self)
    rintro m (hm | hm)
    · rcases (visited.mem_insert n m).mp hm with rfl | hm
      · exact here
      · exact hd m (.inl hm)
    · rcases List.mem_append.mp hm with new | old
      · exact closed n m here (.inl (h.dependents_subset (Registry.visit_mem_opening.mp new)))
      · exact hd m (.inr (List.mem_cons_of_mem _ old))
  | release => exact fun m hm => hd m (tail hm)
  | @inside r' n rest visited released =>
    have here : p n := hd n (.inl (h.orderly.visited n .inside List.mem_cons_self))
    rintro m (hm | hm)
    · exact hd m (.inl hm)
    · rcases List.mem_append.mp hm with new | old
      · simp only [List.mem_map, Agenda.Item.visit.injEq, exists_eq_right] at new
        exact closed n m here (.inr (h.mem_containedIn.mp new))
      · exact hd m (.inr (List.mem_cons_of_mem _ old))
  | forget => exact fun m hm => hd m (tail hm)
  | finish => cases h.orderly.isLocal _ List.mem_cons_self

theorem meets_comes (h : Underway r d) (hc : Comes d e) {m : Name} (hm : d.agenda.Meets m) :
    e.agenda.Meets m := by
  induction hc with
  | refl => exact hm
  | tail hc hs ih => exact (h.comes hc).meets_step hs ih

theorem confined_comes {p : Name → Prop} (closed : ∀ n m, p n → r.graph.Pulls n m → p m)
    (h : Underway r d) (hc : Comes d e) (hd : ∀ m, d.agenda.Meets m → p m) :
    ∀ m, e.agenda.Meets m → p m := by
  induction hc with
  | refl => exact hd
  | tail hc hs ih => exact (h.comes hc).confined_step closed hs ih

end Underway

end Dismantling

/-- What is left of a registry once these names are taken out wholly. -/
abbrev Registry.Cleared (r : Registry) (gone : NameSet) (r' : Registry) : Prop :=
  r.Stripped gone gone gone r'

/-- These names, and what they bring about, have been taken out and their handles released. -/
structure Registry.Torn (r : Registry) (gone : NameSet) (r' : Registry)
    (released : List (Name × Handle)) : Prop where
  cleared : r.Cleared gone r'
  closed : ∀ n m, n ∈ gone → r.graph.Pulls n m → m ∈ gone
  mem_released : ∀ n handle, (n, handle) ∈ released ↔ n ∈ gone ∧ r.Bears n handle
  once : (released.map (·.1)).Nodup

namespace Dismantling

theorem Underway.torn {r : Registry} {d : Dismantling} (h : Underway r d) (done : d.items = []) :
    r.Torn d.visited d.registry d.released := by
  have past (k : Name) (s : Stage) : d.agenda.Past k s ↔ k ∈ d.visited :=
    Agenda.past_iff_of_done done k s
  have met {m : Name} (hm : d.agenda.Meets m) : m ∈ d.visited := by
    rcases hm with hm | hm
    · exact hm
    · simp [agenda, done] at hm
  obtain ⟨emptied, forgotten, stripped, hemptied, hforgotten⟩ := h.leaves
  have wholly : emptied = d.visited ∧ forgotten = d.visited :=
    ⟨Std.ExtTreeSet.ext_mem fun k => (hemptied k).trans (past k _),
      Std.ExtTreeSet.ext_mem fun k => (hforgotten k).trans (past k _)⟩
  rw [wholly.1, wholly.2] at stripped
  refine ⟨stripped, fun n m hn pulls => met ?_, fun n handle => ?_, h.once⟩
  · rcases pulls with hm | hm
    · exact h.dependents n hn m hm
    · exact h.inside n ((past n _).mpr hn) m hm
  · rw [h.released, past]

/-- The teardown of a name takes out exactly what the name brings about. -/
theorem torn_of_comes {r : Registry} {n : Name} {e : Dismantling}
    (h : Comes ⟨r, [.visit n], ∅, []⟩ e) (done : e.items = []) :
    r.Torn e.visited e.registry e.released ∧ ∀ m, m ∈ e.visited ↔ r.graph.Reaches n m := by
  have first := Underway.start r n
  have torn := (first.comes h).torn done
  refine ⟨torn, fun m => ⟨fun hm => ?_, fun reach => ?_⟩⟩
  · refine first.confined_comes (p := r.graph.Reaches n) (fun _ _ hk => hk.tail) h ?_ m (.inl hm)
    rintro m (hm | hm)
    · exact absurd hm Std.ExtTreeSet.not_mem_empty
    · obtain rfl := Agenda.Item.visit.inj (List.mem_singleton.mp hm)
      exact .refl
  · induction reach with
    | refl =>
      rcases first.meets_comes h (.inr List.mem_cons_self) with hn | hn
      · exact hn
      · simp [agenda, done] at hn
    | tail _ pulls ih => exact torn.closed _ _ ih pulls

end Dismantling

open Dismantling in
/-- Where release callbacks leave the registry alone, the destruction of a name ends and takes out
what the name brings about. -/
theorem Session.exists_destroys_torn {env : Environment} {w : World}
    (quiet : env.Quiet w.registry) (n : Name) :
    ∃ gone released torn w', (∀ m, m ∈ gone ↔ w.registry.graph.Reaches n m) ∧
      w.registry.Torn gone torn released ∧ Destroys env w (.destroy n) w' released ∧
      torn.Alike w'.registry := by
  obtain ⟨e, comes, done⟩ := exists_comes_done ⟨w.registry, [.visit n], ∅, []⟩
  obtain ⟨torn, closure⟩ := torn_of_comes comes done
  have starts : w.registry.request (.destroy n) =
      { registry := w.registry, progress := .tearing ⟨[.root n], ∅⟩ } := rfl
  have calm : Dismantling.Quiet env ⟨w.registry, [.root n], ∅, []⟩ := ⟨quiet, by simp⟩
  obtain ⟨w', destroys, alike⟩ := destroys_of_comes starts rfl rfl calm (comes.head .root) done
  exact ⟨e.visited, e.released, e.registry, w', closure, torn, destroys, alike⟩

namespace Registry

open Dismantling in
/-- Destroying a name ends, whatever is bound and however the graph looks: it releases the handle of
every name in the closure once and no other, it leaves nothing of these names, and everything of all
others but the dependents that are gone. Nothing of this depends on what release callbacks do that
leave the registry alone, but for the failures that are recorded. -/
theorem destroy_clears_closure (r : Registry) (n : Name) :
    ∃ gone released torn, (∀ m, m ∈ gone ↔ r.graph.Reaches n m) ∧ r.Cleared gone torn ∧
      (∀ m handle, (m, handle) ∈ released ↔ m ∈ gone ∧ r.Bears m handle) ∧
      (released.map (·.1)).Nodup ∧
      ∀ (env : Environment) (w : World), w.registry = r → env.Quiet r →
        ∃ w', Session.Destroys env w (.destroy n) w' released ∧ torn.Alike w'.registry := by
  obtain ⟨e, comes, done⟩ := exists_comes_done ⟨r, [.visit n], ∅, []⟩
  obtain ⟨torn, closure⟩ := torn_of_comes comes done
  refine ⟨e.visited, e.released, e.registry, closure, torn.cleared, torn.mem_released, torn.once,
    fun env w hw quiet => ?_⟩
  have starts : w.registry.request (.destroy n) =
      { registry := r, progress := .tearing ⟨[.root n], ∅⟩ } := by
    rw [hw]
    rfl
  have calm : Dismantling.Quiet env ⟨r, [.root n], ∅, []⟩ := ⟨quiet, by simp⟩
  exact Session.destroys_of_comes starts rfl rfl calm (comes.head .root) done

/-- Two names that depend on each other, one of which contains a third: the release callback of the
second throws, the third is released all the same, and a fourth is left alone. -/
theorem destroy_clears_cycle :
    ∃ (env : Environment) (w w' : World) (released : List (Name × Handle)),
      env.Quiet w.registry ∧ Session.Destroys env w (.destroy "a") w' released ∧
      ("b", .callback "f") ∈ released ∧ ("c", .idle) ∈ released ∧ ("d", .idle) ∉ released ∧
      w.registry.cache.registered = ["b", "d"] ∧ w'.registry.cache.registered = ["d"] := by
  let r : Registry := {
    cache := (Cache.bind {} "b" (some "x")).bind "d" (some "y")
    graph := ((Graph.depend {} "a" "b").depend "b" "a").contain "b" "c"
    disposables := ⟨[("b", .callback "f"), ("c", .idle), ("d", .idle)]⟩ }
  let env : Environment :=
    { body := fun _ _ => .finish (.error (.foreign 0)), host := default }
  obtain ⟨gone, released, torn, closure, cleared, mem, -, destroys⟩ := destroy_clears_closure r "a"
  have quiet : env.Quiet r := fun _ _ _ _ => trivial
  obtain ⟨w', done, faults, same⟩ := destroys env { registry := r } rfl quiet
  have hb : "b" ∈ gone := (closure "b").mpr (.single (.inl (by decide +kernel)))
  have hc : "c" ∈ gone := (closure "c").mpr
    (((closure "b").mp hb).tail (.inr (by decide +kernel)))
  have hd : "d" ∉ gone := by
    have confined : ∀ n ∈ ["a", "b", "c"], ∀ m ∈ r.graph.dependentsOf n ++ r.graph.containedIn n,
        m ∈ ["a", "b", "c"] := by decide +kernel
    have within {m : Name} (hm : r.graph.Reaches "a" m) : m ∈ ["a", "b", "c"] := by
      induction hm with
      | refl => decide
      | tail _ pulls ih => exact confined _ ih _ (List.mem_append.mpr pulls)
    exact fun hd => absurd (within ((closure "d").mp hd)) (by decide)
  have names : r.cache.registered = ["b", "d"] := by decide +kernel
  refine ⟨env, { registry := r }, w', released, quiet, done, ?_, ?_, ?_, names, ?_⟩
  · exact (mem _ _).mpr ⟨hb, by decide, by decide⟩
  · exact (mem _ _).mpr ⟨hc, by decide, by decide⟩
  · exact fun h => hd ((mem _ _).mp h).1
  · rw [same]
    show torn.cache.registered = ["d"]
    rw [cleared.registered, names]
    simp [hb, hd]

end Registry

end Singletons
