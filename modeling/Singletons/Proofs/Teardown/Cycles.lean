import Singletons.Proofs.Teardown.Acyclic
/-!
# Teardowns of names with circular dependencies

Where no name contains another, an edge that is on no cycle is respected by every teardown: the
dependent is released before the name that it depends on, whatever cycles there are besides. A
dependent that is skipped, since it was visited before, has been released, or there is a cycle.
-/

namespace Singletons

/-- Whether a link makes a name depend on another one and says nothing of containment. -/
def Link.isDependency : Link → Bool
  | depend _ _ => true
  | contain _ _ => false

namespace Graph

/-- The second name depends on the first one, directly or through others, or is the same. -/
abbrev Supports (g : Graph) : Name → Name → Prop :=
  Relation.ReflTransGen fun n m => m ∈ g.dependentsOf n

theorem contained_foldl {links : List Link} (plain : ∀ link ∈ links, link.isDependency)
    (g : Graph) : (links.foldl record g).contained = g.contained := by
  induction links generalizing g with
  | nil => rfl
  | cons link links ih =>
    have rest := ih (fun other h => plain other (List.mem_cons_of_mem _ h)) (g.record link)
    have first := plain link List.mem_cons_self
    rw [List.foldl_cons, rest]
    cases link with
    | depend n d => exact g.contained_depend n d
    | contain c p => cases first

theorem containedIn_ofLinks (canonical : Name → Name) {links : List Link}
    (plain : ∀ link ∈ links, link.isDependency) (n : Name) :
    (ofLinks canonical links).containedIn n = [] := by
  have nothing : (ofLinks canonical links).contained = ∅ := contained_foldl plain { canonical }
  rw [containedIn, nothing]
  exact members_of_not_mem Std.ExtTreeMap.not_mem_empty

/-- Without containment, what a name preempts can be reached from it. -/
theorem Preempts.supports {g : Graph} (plain : ∀ n, g.containedIn n = []) {d n : Name}
    (h : g.Preempts d n) : g.Supports d n := by
  obtain ⟨e, he, -, path⟩ := h
  have followed : ∀ x y, g.Pulls x y ∧ y ≠ d → y ∈ g.dependentsOf x := by
    intro x y step
    rcases step.1 with hy | hy
    · exact hy
    · simp [plain x] at hy
  have steps : g.Supports e n := path.lift id followed
  exact steps.head he

end Graph

namespace Session

variable {env : Environment} {w : World} {links : List Link} {canonical : Name → Name}

/-- In a graph of dependencies alone every destruction ends, and a name is released after each of
its dependents from which it cannot be reached itself, so that the two are on no cycle. -/
theorem dependents_released_across_cycles (linked : w.registry.graph = .ofLinks canonical links)
    (plain : ∀ link ∈ links, link.isDependency) (quiet : env.Quiet w.registry) {q : Request}
    (hq : q.isDestruction) :
    (∃ w' released, Destroys env w q w' released) ∧
    ∀ w' released, Destroys env w q w' released →
      ∀ d n own handle before, d ∈ w.registry.graph.dependentsOf n →
        ¬ w.registry.graph.Supports d n → w.registry.Bears d own →
        before ++ [(n, handle)] <+: released → (d, own) ∈ before := by
  obtain ⟨w₁, rs, done, first, -⟩ := exists_destroys quiet hq
  refine ⟨⟨w₁, rs, done⟩, ?_⟩
  intro w' released destroys d n own handle before hd apart bears hp
  obtain ⟨-, rfl⟩ := destroys.unique done
  have uncontained : ∀ k, w.registry.graph.containedIn k = [] := by
    intro k
    rw [linked]
    exact Graph.containedIn_ofLinks canonical plain k
  have other : d ≠ n := by
    intro same
    subst same
    exact apart .refl
  have clear : ¬ w.registry.graph.Preempts d n := by
    intro preempts
    exact apart (preempts.supports uncontained)
  exact first n handle before hp d hd other clear own bears

/-- Two names that depend on each other, one of them by an alias, and a third that depends on the
latter: the third is released first, though the teardown starts on the other side of the cycle. -/
theorem released_across_cycle : ∃ (links : List Link) (canonical : Name → Name) (env : Environment)
    (w w' : World) (released before : List (Name × Handle)),
    w.registry.graph = .ofLinks canonical links ∧ (∀ link ∈ links, link.isDependency) ∧
      env.Quiet w.registry ∧ "a" ∈ w.registry.graph.dependentsOf "b" ∧
      "b" ∈ w.registry.graph.dependentsOf "a" ∧ Destroys env w (.destroy "b") w' released ∧
      before ++ [("a", .callback "f")] <+: released ∧ ("c", .callback "h") ∈ before := by
  let canonical : Name → Name := fun n => if n = "A" then "a" else n
  let links : List Link := [.depend "A" "b", .depend "b" "a", .depend "A" "c"]
  let env : Environment :=
    { body := fun _ _ => .finish (.error (.foreign 0)), host := default }
  let w : World := { registry := {
    graph := .ofLinks canonical links
    disposables := ⟨[("a", .callback "f"), ("b", .callback "g"), ("c", .callback "h")]⟩ } }
  have plain : ∀ link ∈ links, link.isDependency := by decide
  have quiet : env.Quiet w.registry := fun _ _ _ _ => trivial
  have cycle : "a" ∈ w.registry.graph.dependentsOf "b" := by decide +kernel
  have back : "b" ∈ w.registry.graph.dependentsOf "a" := by decide +kernel
  have first : "c" ∈ w.registry.graph.dependentsOf "a" := by decide +kernel
  have alone : w.registry.graph.dependentsOf "c" = [] := by decide +kernel
  have apart : ¬ w.registry.graph.Supports "c" "a" := by
    intro path
    rcases path.cases_head with same | ⟨m, hm, -⟩
    · exact absurd same (by decide)
    · simp [alone] at hm
  obtain ⟨e, comes, done⟩ := Dismantling.exists_comes_done ⟨w.registry, [.visit "b"], ∅, []⟩
  obtain ⟨torn, closure⟩ := Dismantling.torn_of_comes comes done
  have starts : w.registry.request (.destroy "b") =
      { registry := w.registry, progress := .tearing ⟨[.root "b"], ∅⟩ } := rfl
  have calm : Dismantling.Quiet env ⟨w.registry, [.root "b"], ∅, []⟩ := ⟨quiet, by simp⟩
  obtain ⟨w', destroys, -⟩ := destroys_of_comes starts rfl rfl calm (comes.head .root) done
  have released : ("a", .callback "f") ∈ e.released :=
    (torn.mem_released _ _).mpr ⟨(closure "a").mpr (.single (.inl cycle)), by decide, by decide⟩
  obtain ⟨before, after, split⟩ := List.append_of_mem released
  have hp : before ++ [("a", .callback "f")] <+: e.released := ⟨after, by simp [split]⟩
  have ordered := (dependents_released_across_cycles rfl plain quiet rfl).2 w' e.released destroys
  exact ⟨links, canonical, env, w, w', e.released, before, rfl, plain, quiet, cycle, back, destroys,
    hp, ordered "c" "a" (.callback "h") (.callback "f") before first apart
      ⟨by decide, by decide⟩ hp⟩

end Session

end Singletons
