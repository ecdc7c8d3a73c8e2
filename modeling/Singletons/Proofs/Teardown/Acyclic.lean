import Singletons.Proofs.Graph.Links
import Singletons.Proofs.Teardown.Order
/-!
# Teardowns of names without circular dependencies

Where no name depends on itself, dependents are released before what they depend on, unless a
container that depends on a name contains, or brings about otherwise, what the name depends on.
-/

namespace Singletons

/-- Whether a request destroys names. -/
def Request.isDestruction : Request → Bool
  | destroy _ => true
  | destroyAll => true
  | _ => false

/-- Whenever a name and one that it depends on are both released, the former is released first. -/
def InOrder (links : List Link) (released : List (Name × Handle)) : Prop :=
  ∀ d n own handle before, DependsOn links d n → (d, own) ∈ released →
    before ++ [(n, handle)] <+: released → (d, own) ∈ before

namespace Session

variable {env : Environment} {w : World} {q : Request}

/-- A request to destroy ends, and releases dependents first but for those that are preempted. -/
theorem exists_destroys (quiet : env.Quiet w.registry) (hq : q.isDestruction) :
    ∃ w' released, Destroys env w q w' released ∧ w.registry.DependentsFirst released ∧
      ∀ n handle, (n, handle) ∈ released → w.registry.Bears n handle := by
  cases q with
  | destroy n =>
    obtain ⟨_, _, _, released, comes, torn, first⟩ :=
      Dismantling.exists_swept w.registry [n] [] ∅ []
    have calm : Dismantling.Quiet env ⟨w.registry, [.root n], ∅, []⟩ := ⟨quiet, by simp⟩
    have starts : w.registry.request (.destroy n) =
        { registry := w.registry, progress := .tearing ⟨[.root n], ∅⟩ } := rfl
    obtain ⟨w', done, -⟩ := destroys_of_comes starts rfl rfl calm comes rfl
    exact ⟨w', released, done, first, fun m handle hm => ((torn.mem_released m handle).mp hm).2⟩
  | destroyAll =>
    let r : Registry := { w.registry with destroying := true }
    obtain ⟨_, _, _, released, comes, torn, first⟩ :=
      Dismantling.exists_swept r r.disposables.names.reverse [.finish] ∅ []
    have calm : Dismantling.Quiet env
        ⟨r, r.disposables.names.reverse.map .root ++ [.finish], ∅, []⟩ := ⟨quiet, by simp⟩
    have starts : w.registry.request .destroyAll =
        { registry := r
          progress := .tearing ⟨r.disposables.names.reverse.map .root ++ [.finish], ∅⟩
          notes := w.registry.destroyAll.notes } := rfl
    obtain ⟨w', done, -⟩ := destroys_of_comes starts rfl rfl calm (comes.tail .finish) rfl
    exact ⟨w', released, done, first, fun m handle hm => ((torn.mem_released m handle).mp hm).2⟩
  | _ => cases hq

/-- A name is released before what it preempts if its destruction is asked for. -/
theorem exists_destroys_preempted (quiet : env.Quiet w.registry) {d n : Name} {own handle : Handle}
    (hd : w.registry.Bears d own) (hn : w.registry.Bears n handle)
    (preempts : w.registry.graph.Preempts d n) :
    ∃ w' released before, Destroys env w (.destroy d) w' released ∧ (d, own) ∈ released ∧
      before ++ [(n, handle)] <+: released ∧ (d, own) ∉ before := by
  obtain ⟨e, before, comes, done, hr, hp, late⟩ := Dismantling.exists_preempted hd hn preempts
  have starts : w.registry.request (.destroy d) =
      { registry := w.registry, progress := .tearing ⟨[.root d], ∅⟩ } := rfl
  have calm : Dismantling.Quiet env ⟨w.registry, [.root d], ∅, []⟩ := ⟨quiet, by simp⟩
  obtain ⟨w', destroys, -⟩ := destroys_of_comes starts rfl rfl calm comes done
  exact ⟨w', e.released, before, destroys, hr, hp, late⟩

/-- For names without circular dependencies and release callbacks that leave the registry alone,
every destruction ends. All of them release dependents first, exactly if no name with a handle
preempts a name with a handle that it depends on. -/
theorem releases_in_order_iff {links : List Link} (acyclic : Acyclic links)
    (linked : w.registry.graph = .ofLinks id links) (quiet : env.Quiet w.registry) :
    (∀ q : Request, q.isDestruction → ∃ w' released, Destroys env w q w' released) ∧
    ((∀ (q : Request) w' released, q.isDestruction → Destroys env w q w' released →
        InOrder links released) ↔
      ∀ d n own handle, DependsOn links d n → w.registry.Bears d own → w.registry.Bears n handle →
        ¬ w.registry.graph.Preempts d n) := by
  have filed (d n : Name) : DependsOn links d n ↔ d ∈ w.registry.graph.dependentsOf n := by
    rw [linked, Graph.mem_dependentsOf_ofLinks]
    rfl
  refine ⟨fun q hq => ?_, fun ordered d n own handle depends hd hn preempts => ?_,
    fun clear q w' released hq destroys => ?_⟩
  · obtain ⟨w', released, destroys, -⟩ := exists_destroys quiet hq
    exact ⟨w', released, destroys⟩
  · obtain ⟨w', released, before, destroys, hr, hp, late⟩ :=
      exists_destroys_preempted quiet hd hn preempts
    exact late (ordered (.destroy d) w' released rfl destroys d n own handle before depends hr hp)
  · intro d n own handle before depends hr hp
    obtain ⟨w₁, rs, done, first, held⟩ := exists_destroys quiet hq
    obtain ⟨-, rfl⟩ := destroys.unique done
    have hn : (n, handle) ∈ released := hp.subset (by simp)
    have other : d ≠ n := by
      rintro rfl
      exact acyclic d (.single depends)
    exact first n handle before hp d ((filed d n).mp depends) other
      (clear d n own handle depends (held d own hr) (held n handle hn)) own (held d own hr)

/-- A container that depends on `d` contains `x`, and `d` depends on `x` as well: on the way to `d`
the container is torn down with its content, and `x` is released before `d`. -/
theorem released_before_dependent : ∃ (links : List Link) (env : Environment) (w : World),
    Acyclic links ∧ w.registry.graph = .ofLinks id links ∧ env.Quiet w.registry ∧
      DependsOn links "d" "x" ∧ ∃ (q : Request) (w' : World) (released : List (Name × Handle)),
        q.isDestruction ∧ Destroys env w q w' released ∧ ¬ InOrder links released := by
  let links : List Link := [.depend "d" "c", .contain "c" "x", .depend "x" "d"]
  let env : Environment := { body := fun _ _ => .finish (.ok .nothing), host := default }
  let w : World := { registry := {
    graph := .ofLinks id links
    disposables := ⟨[("d", .callback "f"), ("x", .callback "g")]⟩ } }
  let rank : Name → Nat := fun n => if n = "c" then 2 else if n = "d" then 1 else 0
  have falls {d n : Name} (h : DependsOn links d n) : rank n < rank d := by
    obtain ⟨link, hl, rfl, rfl⟩ := h
    revert link
    decide
  have acyclic : Acyclic links := by
    intro n cycle
    have lower {d n : Name} (h : Relation.TransGen (DependsOn links) d n) : rank n < rank d := by
      induction h with
      | single step => exact falls step
      | tail _ step ih => exact (falls step).trans ih
    exact lt_irrefl _ (lower cycle)
  have quiet : env.Quiet w.registry := fun _ _ _ _ => trivial
  have depends : DependsOn links "d" "x" := ⟨.depend "x" "d", by decide, rfl, rfl⟩
  have preempts : w.registry.graph.Preempts "d" "x" :=
    ⟨"c", by decide +kernel, by decide, .single ⟨.inr (by decide +kernel), by decide⟩⟩
  have violated : ¬ ∀ (q : Request) (w' : World) (released : List (Name × Handle)),
      q.isDestruction → Destroys env w q w' released → InOrder links released := fun ordered =>
    (releases_in_order_iff acyclic rfl quiet).2.mp ordered "d" "x" (.callback "f") (.callback "g")
      depends ⟨by decide, by decide⟩ ⟨by decide, by decide⟩ preempts
  push Not at violated
  exact ⟨links, env, w, acyclic, rfl, quiet, depends, violated⟩

end Session

end Singletons
