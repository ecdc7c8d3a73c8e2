import Singletons.Proofs.Graph.Chains
import Singletons.Proofs.Teardown.Cycles
/-!
# Teardowns and aliases

A query for dependents goes on from what a dependent stands for, a teardown from the dependent as it
is filed. The teardown of a name takes along all its dependents, exactly if none of those that it
takes along stands for a name with a dependent that it leaves behind.
-/

namespace Singletons

/-- Nothing is left of a name, and its handle, if it had one, has been released. -/
structure Registry.TakenOut (r : Registry) (n : Name) (r' : Registry)
    (released : List (Name × Handle)) : Prop where
  unbound : r'.cache.contains n = false
  unlisted : n ∉ r'.cache.registered
  unheld : r'.disposables.handle? n = none
  released : ∀ handle, r.Bears n handle → (n, handle) ∈ released

/-- Whatever is filed under what a destroyed dependent of a name stands for is destroyed with the
name as well. -/
def Graph.Covers (g : Graph) (n : Name) : Prop :=
  ∀ d m, g.Supports n d → (d = n ∨ g.isDependent n d = true) →
    m ∈ g.dependentsOf (g.canonical d) → g.Supports n m

namespace Session

variable {env : Environment} {w : World}

theorem exists_takenOut_iff_supports (plain : ∀ k, w.registry.graph.containedIn k = [])
    (quiet : env.Quiet w.registry) (n : Name) :
    ∃ w' released, Destroys env w (.destroy n) w' released ∧
      (∀ m, w.registry.graph.Supports n m → w.registry.TakenOut m w'.registry released) ∧
      ∀ m handle, w.registry.disposables.handle? m = some handle →
        w'.registry.disposables.handle? m = none → w.registry.graph.Supports n m := by
  obtain ⟨gone, released, torn, w', closure, ⟨cleared, -, mem, -⟩, done, faults, same⟩ :=
    exists_destroys_torn quiet n
  have met (m : Name) : m ∈ gone ↔ w.registry.graph.Supports n m := by
    have pulls : w.registry.graph.Pulls = fun k m => m ∈ w.registry.graph.dependentsOf k := by
      funext k m
      simp [Graph.Pulls, plain k]
    rw [closure, Graph.Reaches, pulls]
  refine ⟨w', released, done, fun m supports => ?_, fun m handle held free => ?_⟩
  · have taken := (met m).mpr supports
    refine ⟨?_, ?_, ?_, fun handle bears => (mem m handle).mpr ⟨taken, bears⟩⟩
    · rw [same, Cache.contains, Std.ExtTreeMap.contains_eq_isSome_getElem?]
      show (torn.cache.bound[m]?).isSome = false
      rw [cleared.bound, if_pos taken]
      rfl
    · rw [same]
      show m ∉ torn.cache.registered
      rw [cleared.registered]
      simp [taken]
    · rw [same]
      show torn.disposables.handle? m = none
      rw [cleared.handle?, if_pos taken]
  · rw [same] at free
    replace free : torn.disposables.handle? m = none := free
    rw [cleared.handle?, held] at free
    apply (met m).mp
    by_contra left
    rw [if_neg left] at free
    cases free

/-- In a graph of dependencies alone, where release callbacks leave the registry alone, destroying a
canonical name takes out every name that depends on it, exactly if the graph covers the name. It
does if all dependents are filed by their canonical names. -/
theorem destroys_dependents_iff {canonical : Name → Name} {links : List Link}
    (plain : ∀ link ∈ links, link.isDependency) {n : Name} (own : canonical n = n) :
    ((∀ env w c, w.registry.graph = .ofLinks canonical links → env.Quiet w.registry →
        w.registry.graph.isDependent n c = true →
          ∃ w' released, Destroys env w (.destroy n) w' released ∧
            w.registry.TakenOut c w'.registry released) ↔
      (Graph.ofLinks canonical links).Covers n) ∧
    ((∀ link ∈ links, canonical link.dependent = link.dependent) →
      (Graph.ofLinks canonical links).Covers n) := by
  let g := Graph.ofLinks canonical links
  have stands : g.canonical = canonical := Graph.canonical_foldl { canonical } links
  have uncontained : ∀ k, g.containedIn k = [] := Graph.containedIn_ofLinks canonical plain
  refine ⟨⟨?_, ?_⟩, ?_⟩
  · intro agrees d m _ before filed
    have depends : g.isDependent n m = true := by
      rw [Graph.isDependent_iff]
      rcases before with rfl | before
      · exact .single filed
      · exact ((Graph.isDependent_iff g n d).mp before).tail filed
    -- A handle of its own tells whether the name is taken out.
    let env : Environment := { body := fun _ _ => .finish (.ok .nothing), host := default }
    let w : World := { registry := { graph := g, disposables := ⟨[(m, .idle)]⟩ } }
    have quiet : env.Quiet w.registry := fun _ _ _ _ => trivial
    have held : w.registry.disposables.handle? m = some .idle := List.lookup_cons_self
    obtain ⟨w', released, destroys, taken⟩ := agrees env w m rfl quiet depends
    obtain ⟨w₁, released₁, destroys₁, -, freed⟩ := exists_takenOut_iff_supports uncontained quiet n
    obtain ⟨rfl, -⟩ := destroys.unique destroys₁
    exact freed m .idle held taken.unheld
  · intro covers env w c linked quiet depends
    have supports : g.Supports n c := by
      rw [linked, Graph.isDependent_iff] at depends
      induction depends with
      | single hop => exact covers n _ .refl (.inl rfl) hop
      | tail before hop ih =>
        exact covers _ _ ih (.inr ((Graph.isDependent_iff _ _ _).mpr before)) hop
    have plain : ∀ k, w.registry.graph.containedIn k = [] := by
      rw [linked]
      exact uncontained
    obtain ⟨w', released, destroys, taken, -⟩ := exists_takenOut_iff_supports plain quiet n
    exact ⟨w', released, destroys, taken c (linked ▸ supports)⟩
  · intro aligned d m supports _ filed
    have itself : canonical d = d := by
      cases supports.cases_tail with
      | inl same => exact same ▸ own
      | inr last =>
        obtain ⟨k, -, hd⟩ := last
        obtain ⟨link, hl, -, rfl⟩ := (Graph.mem_dependentsOf_ofLinks canonical links k d).mp hd
        exact aligned link hl
    rw [stands, itself] at filed
    exact supports.tail filed

/-- A name has a dependent that is filed by an alias, and another name depends on what the alias
stands for: the latter depends on the former, and is left behind when the former is destroyed. -/
theorem dependent_left_behind : ∃ (canonical : Name → Name) (links : List Link),
    (∀ link ∈ links, link.isDependency) ∧ canonical "a" = "a" ∧
      ∃ (env : Environment) (w : World) (c : Name), w.registry.graph = .ofLinks canonical links ∧
        env.Quiet w.registry ∧ w.registry.graph.isDependent "a" c = true ∧
        ∀ w' released, Destroys env w (.destroy "a") w' released →
          ¬ w.registry.TakenOut c w'.registry released := by
  let canonical : Name → Name := fun n => if n = "B" then "b" else n
  let links : List Link := [.depend "a" "B", .depend "b" "c"]
  let g := Graph.ofLinks canonical links
  have plain : ∀ link ∈ links, link.isDependency := by decide
  have own : canonical "a" = "a" := rfl
  have first : g.dependentsOf "a" = ["B"] := by decide +kernel
  have barren : g.dependentsOf "B" = [] := by decide +kernel
  have uncovered : ¬ g.Covers "a" := by
    intro covers
    have hop : g.Backs "a" "B" := by
      show "B" ∈ g.dependentsOf (g.canonical "a")
      decide +kernel
    have depends := (Graph.isDependent_iff g "a" "B").mpr (.single hop)
    have hb : "B" ∈ g.dependentsOf "a" := by
      rw [first]
      exact List.mem_singleton_self _
    have path := covers "B" "c" (.single hb) (.inr depends) (by decide +kernel)
    have within {m : Name} (path : g.Supports "a" m) : m = "a" ∨ m = "B" := by
      induction path with
      | refl => exact .inl rfl
      | tail _ hm ih =>
        rcases ih with rfl | rfl
        · rw [first] at hm
          exact .inr (List.mem_singleton.mp hm)
        · rw [barren] at hm
          cases hm
    rcases within path with h | h
    · exact absurd h (by decide)
    · exact absurd h (by decide)
  have violated := mt (destroys_dependents_iff plain own).1.mp uncovered
  push Not at violated
  exact ⟨canonical, links, plain, own, violated⟩

end Session

end Singletons
