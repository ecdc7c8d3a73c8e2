import Singletons.Proofs.Graph.Indexes
import Singletons.Proofs.Handles.Dealing
import Singletons.Proofs.Teardown.Closure
/-!
# The indexes of the graph across teardowns

A teardown takes an edge out of the two indexes at different times. What is missing on one side in
between, a teardown on the call stack still has to take out of the other; so the indexes agree again
when the last teardown has ended.
-/

namespace Singletons

/-- Whether the next step files an edge of the graph. -/
def Control.links : Control → Bool
  | perform (.registry q) => q.links
  | _ => false

namespace Agenda

/-- The stage is still to come for the name, be it after a visit. -/
def Owes (a : Agenda) (n : Name) (s : Stage) : Prop :=
  (n, s) ∈ a.dues ∨ .visit n ∈ a.items ∧ n ∉ a.visited

theorem owes_or_past {a : Agenda} {n : Name} (h : .visit n ∈ a.items) (s : Stage) :
    a.Owes n s ∨ a.Past n s := by
  by_cases visited : n ∈ a.visited
  · by_cases due : (n, s) ∈ a.dues
    · exact .inl (.inl due)
    · exact .inr ⟨visited, due⟩
  · exact .inl (.inr ⟨h, visited⟩)

/-- The next step brings the name past the stage. -/
def Takes (a : Agenda) (n : Name) (s : Stage) : Prop :=
  ∃ item rest, a.items = item :: rest ∧ item.due? = some (n, s)

end Agenda

namespace Dismantling

variable {d e : Dismantling} {n : Name} {s : Stage}

theorem due_tail {item : Agenda.Item} {rest : List Agenda.Item} {visited : NameSet}
    (h : (n, s) ∈ Agenda.dues ⟨item :: rest, visited⟩) :
    (n, s) ∈ Agenda.dues ⟨rest, visited⟩ ∨ Agenda.Takes ⟨item :: rest, visited⟩ n s := by
  obtain ⟨other, hm, due⟩ := List.mem_filterMap.mp h
  rcases List.mem_cons.mp hm with same | hm
  · exact .inr ⟨item, rest, rfl, same ▸ due⟩
  · exact .inl (List.mem_filterMap.mpr ⟨other, hm, due⟩)

theorem due_cons {item : Agenda.Item} {rest : List Agenda.Item} {visited : NameSet}
    (h : (n, s) ∈ Agenda.dues ⟨rest, visited⟩) : (n, s) ∈ Agenda.dues ⟨item :: rest, visited⟩ :=
  ((List.sublist_cons_self item rest).filterMap _).subset h

/-- What is due stays due until it is done. -/
theorem Step.due (h : Step d e) (due : (n, s) ∈ d.agenda.dues) :
    (n, s) ∈ e.agenda.dues ∨ d.agenda.Takes n s := by
  cases h with
  | root => exact .inl due
  | visit =>
    left
    rw [agenda, Agenda.dues_opening]
    exact List.mem_cons_of_mem _ (List.mem_cons_of_mem _ (List.mem_cons_of_mem _ due))
  | inside =>
    rw [agenda, Agenda.dues_visits]
    exact due_tail due
  | _ => exact due_tail due

/-- Nothing becomes due but for a name that is visited, and for that all at once. -/
theorem Step.due_before (h : Step d e) (due : (n, s) ∈ e.agenda.dues) :
    (n, s) ∈ d.agenda.dues ∨ ∀ t, (n, t) ∈ e.agenda.dues := by
  cases h with
  | root => exact .inl due
  | @visit r m =>
    simp only [agenda, Agenda.dues_opening, List.mem_cons, Prod.mk.injEq] at due ⊢
    by_cases same : n = m
    · exact .inr fun t => by cases t <;> simp [same]
    · simp only [same, false_and, false_or] at due
      exact .inl due
  | inside =>
    rw [agenda, Agenda.dues_visits] at due
    exact .inl (due_cons due)
  | _ => exact .inl (due_cons due)

/-- What is owed stays owed until it is done. -/
theorem Step.owes (h : Step d e) (owed : d.agenda.Owes n s) :
    e.agenda.Owes n s ∨ d.agenda.Takes n s := by
  rcases owed with due | ⟨meant, fresh⟩
  · exact (h.due due).imp_left .inl
  · have later {item : Agenda.Item} {rest : List Agenda.Item} (other : item ≠ .visit n)
        (hm : .visit n ∈ item :: rest) : .visit n ∈ rest :=
      (List.mem_cons.mp hm).resolve_left (Ne.symm other)
    left
    cases h with
    | root => exact .inr ⟨List.mem_cons_of_mem _ (later (by simp) meant), by simp [agenda]⟩
    | @revisit r m rest visited released seen =>
      refine .inr ⟨later (fun same => ?_) meant, fresh⟩
      obtain rfl := Agenda.Item.visit.inj same
      exact fresh seen
    | @visit r m rest visited released unseen =>
      by_cases same : n = m
      · subst same
        left
        rw [agenda, Agenda.dues_opening]
        cases s <;> simp
      · have other : Agenda.Item.visit m ≠ .visit n := fun h => same (Agenda.Item.visit.inj h).symm
        refine .inr ⟨List.mem_append_right _ (later other meant), ?_⟩
        rw [agenda, NameSet.mem_insert]
        exact not_or.mpr ⟨same, fresh⟩
    | inside => exact .inr ⟨List.mem_append_right _ (later (by simp) meant), fresh⟩
    | _ => exact .inr ⟨later (by simp) meant, fresh⟩

theorem past_tail {item : Agenda.Item} {rest : List Agenda.Item} {visited : NameSet}
    (h : Agenda.Past ⟨rest, visited⟩ n s) :
    Agenda.Past ⟨item :: rest, visited⟩ n s ∨ Agenda.Takes ⟨item :: rest, visited⟩ n s := by
  by_cases due : (n, s) ∈ Agenda.dues ⟨item :: rest, visited⟩
  · exact .inr ((due_tail due).resolve_left h.2)
  · exact .inl ⟨h.1, due⟩

/-- Only what a step does for a name brings it past a stage. -/
theorem Step.past (h : Step d e) (past : e.agenda.Past n s) :
    d.agenda.Past n s ∨ d.agenda.Takes n s := by
  cases h with
  | root =>
    obtain ⟨visited, -⟩ := past
    simp [agenda] at visited
  | revisit => exact past_tail past
  | @visit r m rest visited released fresh =>
    exact past_tail ((Agenda.past_opening r fresh n s).mp past)
  | release => exact past_tail past
  | @inside r m rest visited =>
    exact past_tail ((Agenda.past_visits (r.graph.containedIn m) n s).mp past)
  | forget => exact past_tail past
  | finish => exact past_tail past

end Dismantling

namespace Graph

/-- The names that a name stays filed for until it is past a stage. -/
def filed (g : Graph) (n : Name) : Stage → List Name
  | .release => []
  | .inside => (g.containedIn n).map g.canonical
  | .forget => g.dependenciesOf n

theorem filed_clear (g : Graph) (n : Name) (s : Stage) : g.clear.filed n s = [] := by
  cases s <;> rfl

theorem filed_detachDependents (g : Graph) (k n : Name) (s : Stage) :
    (g.detachDependents k).filed n s = g.filed n s := by
  cases s <;> rfl

theorem filed_detachContained (g : Graph) (k n : Name) (s : Stage) :
    (g.detachContained k).filed n s = if n = k ∧ s = .inside then [] else g.filed n s := by
  cases s with
  | inside =>
    rw [filed, containedIn, detachContained, members_erase, filed, containedIn]
    split <;> simp [*]
  | _ => simp [filed, dependenciesOf, detachContained]

theorem filed_removeDependencies (g : Graph) (k n : Name) (s : Stage) :
    ((g.scrub k).removeDependencies k).filed n s =
      if n = k ∧ s = .forget then [] else g.filed n s := by
  cases s with
  | forget =>
    rw [filed, dependenciesOf, removeDependencies, scrub, members_erase, filed, dependenciesOf]
    simp
  | _ => simp [filed, containedIn, removeDependencies, scrub]

end Graph

namespace Agenda

/-- What a teardown leaves of the graph for the names that it has visited. -/
structure Keeps (a : Agenda) (g : Graph) : Prop where
  past : ∀ n s, a.Past n s → g.filed n s = []
  /-- No name is forgotten before it has been emptied. -/
  inside : ∀ n, (n, .forget) ∈ a.dues → (n, .inside) ∈ a.dues ∨ g.filed n .inside = []

theorem Keeps.mono {a : Agenda} {g g' : Graph} (h : a.Keeps g)
    (fewer : ∀ n s, g'.filed n s ⊆ g.filed n s) : a.Keeps g' where
  past n s past := List.subset_nil.mp (h.past n s past ▸ fewer n s)
  inside n due := by
    rcases h.inside n due with later | struck
    · exact .inl later
    · exact .inr (List.subset_nil.mp (struck ▸ fewer n .inside))

theorem keeps_new {a : Agenda} (fresh : a.visited = ∅) (none : a.dues = []) (g : Graph) :
    a.Keeps g where
  past n s past := by
    obtain ⟨visited, -⟩ := past
    simp [fresh] at visited
  inside n due := by simp [none] at due

end Agenda

namespace Dismantling

variable {d e : Dismantling} {n m : Name} {s : Stage}

theorem Step.filed_subset (h : Step d e) (n : Name) (s : Stage) :
    e.registry.graph.filed n s ⊆ d.registry.graph.filed n s := by
  cases h with
  | @visit r k => simp [Registry.withdraw, Graph.filed_detachDependents]
  | inside =>
    rw [Graph.filed_detachContained]
    split
    · exact List.nil_subset _
    · exact List.Subset.refl _
  | forget =>
    rw [Graph.filed_removeDependencies]
    split
    · exact List.nil_subset _
    · exact List.Subset.refl _
  | finish =>
    rw [Graph.filed_clear]
    exact List.nil_subset _
  | _ => exact List.Subset.refl _

theorem Step.filed_of_takes (h : Step d e) (takes : d.agenda.Takes n s) :
    e.registry.graph.filed n s = [] := by
  obtain ⟨item, rest, items, due⟩ := takes
  cases h with
  | inside =>
    obtain ⟨rfl, -⟩ := List.cons.inj items
    obtain ⟨rfl, rfl⟩ := Prod.mk.inj (Option.some.inj due)
    simp [Graph.filed_detachContained]
  | forget =>
    obtain ⟨rfl, -⟩ := List.cons.inj items
    obtain ⟨rfl, rfl⟩ := Prod.mk.inj (Option.some.inj due)
    simp [Graph.filed_removeDependencies]
  | release =>
    obtain ⟨rfl, -⟩ := List.cons.inj items
    obtain ⟨rfl, rfl⟩ := Prod.mk.inj (Option.some.inj due)
    rfl
  | _ =>
    obtain ⟨rfl, -⟩ := List.cons.inj items
    cases due

theorem Step.keeps (h : Step d e) (keeps : d.agenda.Keeps d.registry.graph) :
    e.agenda.Keeps e.registry.graph where
  past n s past := by
    rcases h.past past with past | takes
    · exact List.subset_nil.mp (keeps.past n s past ▸ h.filed_subset n s)
    · exact h.filed_of_takes takes
  inside n due := by
    rcases h.due_before due with before | all
    · rcases keeps.inside n before with later | struck
      · exact (h.due later).imp_right h.filed_of_takes
      · exact .inr (List.subset_nil.mp (struck ▸ h.filed_subset n .inside))
    · exact .inl (all .inside)

/-- Dependents leave the index only to be visited or when they are forgotten, or with all of the
graph. -/
theorem Step.dependents (h : Step d e) (hm : n ∈ d.registry.graph.dependentsOf m) :
    n ∈ e.registry.graph.dependentsOf m ∨ .visit n ∈ e.items ∨ d.agenda.Takes n .forget ∨
      ∀ k s, e.registry.graph.filed k s = [] := by
  cases h with
  | @visit r k =>
    by_cases own : m = k
    · subst own
      exact .inr (.inl (List.mem_append_left _ (Registry.visit_mem_opening.mpr hm)))
    · exact .inl ((r.graph.mem_dependentsOf_detachDependents k m n).mpr ⟨own, hm⟩)
  | @forget r k rest =>
    by_cases own : n = k
    · exact .inr (.inr (.inl ⟨.forget k, rest, rfl, own ▸ rfl⟩))
    · exact .inl ((r.graph.mem_dependentsOf_scrub k m n).mpr ⟨own, hm⟩)
  | finish => exact .inr (.inr (.inr (Graph.filed_clear _)))
  | _ => exact .inl hm

end Dismantling

namespace Graph

/-- What is filed agrees, but for what these teardowns have to do yet. -/
structure Mending (g : Graph) (agendas : List Agenda) : Prop where
  dependency : ∀ n d, d ∈ g.dependentsOf n → n ∈ g.dependenciesOf d
  dependent : ∀ n s m, m ∈ g.filed n s → n ∈ g.dependentsOf m ∨ ∃ a ∈ agendas, a.Owes n s
  dependents : Filled g.dependents
  dependencies : Filled g.dependencies
  contained : Filled g.contained
  keeps : ∀ a ∈ agendas, a.Keeps g

theorem mending_nil {g : Graph} : g.Mending [] ↔ g.Mirrored := by
  constructor
  · intro h
    have dependent (n : Name) (s : Stage) (m : Name) (hm : m ∈ g.filed n s) :
        n ∈ g.dependentsOf m := by simpa using h.dependent n s m hm
    refine ⟨fun n d => ⟨h.dependency n d, dependent d .forget n⟩, fun c p hp => ?_,
      h.dependents, h.dependencies, h.contained⟩
    exact dependent c .inside _ (List.mem_map_of_mem hp)
  · intro h
    refine ⟨fun n d => (h.mirror n d).mp, fun n s m hm => .inl ?_, h.dependents, h.dependencies,
      h.contained, fun a ha => by cases ha⟩
    cases s with
    | release => cases hm
    | inside =>
      obtain ⟨p, hp, rfl⟩ := List.mem_map.mp hm
      exact h.nested n p hp
    | forget => exact (h.mirror m n).mpr hm

/-- What agrees when a teardown starts agrees but for what it has to do. -/
theorem Mending.start {g : Graph} {agendas : List Agenda} (h : g.Mending agendas)
    {started : List Agenda} (new : ∀ a ∈ started, a.visited = ∅ ∧ a.dues = []) :
    g.Mending (started ++ agendas) where
  dependency := h.dependency
  dependent n s m hm := (h.dependent n s m hm).imp_right fun ⟨a, ha, owes⟩ =>
    ⟨a, List.mem_append_right _ ha, owes⟩
  dependents := h.dependents
  dependencies := h.dependencies
  contained := h.contained
  keeps a ha := by
    rcases List.mem_append.mp ha with ha | ha
    · obtain ⟨fresh, none⟩ := new a ha
      exact Agenda.keeps_new fresh none g
    · exact h.keeps a ha

theorem Mending.tail {g : Graph} {agendas : List Agenda} {a : Agenda}
    (h : g.Mending (a :: agendas)) (done : a.items = []) : g.Mending agendas where
  dependency := h.dependency
  dependent n s m hm := by
    rcases h.dependent n s m hm with there | ⟨b, hb, owes⟩
    · exact .inl there
    · rcases List.mem_cons.mp hb with rfl | hb
      · simp [Agenda.Owes, Agenda.dues, done] at owes
      · exact .inr ⟨b, hb, owes⟩
  dependents := h.dependents
  dependencies := h.dependencies
  contained := h.contained
  keeps b hb := h.keeps b (List.mem_cons_of_mem _ hb)

end Graph

namespace Dismantling

variable {d e : Dismantling} {agendas : List Agenda}

theorem Step.filled (h : Step d e) (dependents : Graph.Filled d.registry.graph.dependents)
    (dependencies : Graph.Filled d.registry.graph.dependencies)
    (contained : Graph.Filled d.registry.graph.contained) :
    Graph.Filled e.registry.graph.dependents ∧ Graph.Filled e.registry.graph.dependencies ∧
      Graph.Filled e.registry.graph.contained := by
  cases h with
  | visit => exact ⟨dependents.erase _, dependencies, contained⟩
  | inside => exact ⟨dependents, dependencies, contained.erase _⟩
  | forget => exact ⟨Graph.filled_scrub _ _, dependencies.erase _, contained⟩
  | finish => exact ⟨Graph.filled_empty, Graph.filled_empty, Graph.filled_empty⟩
  | _ => exact ⟨dependents, dependencies, contained⟩

theorem Step.dependency (h : Step d e)
    (before : ∀ n m, m ∈ d.registry.graph.dependentsOf n → n ∈ d.registry.graph.dependenciesOf m)
    (n m : Name) (hm : m ∈ e.registry.graph.dependentsOf n) :
    n ∈ e.registry.graph.dependenciesOf m := by
  cases h with
  | @visit r k => exact before n m ((r.graph.mem_dependentsOf_detachDependents k n m).mp hm).2
  | @forget r k =>
    obtain ⟨other, hm⟩ := (r.graph.mem_dependentsOf_scrub k n m).mp hm
    show n ∈ ((r.graph.scrub k).removeDependencies k).filed m .forget
    rw [Graph.filed_removeDependencies, if_neg fun h => other h.1]
    exact before n m hm
  | finish => simp [Graph.clear, Graph.dependentsOf, Graph.members] at hm
  | _ => exact before n m hm

/-- What a step takes out on one side, the teardown has to take out on the other one yet. -/
theorem Step.mending (h : Step d e) (before : d.registry.graph.Mending (d.agenda :: agendas)) :
    e.registry.graph.Mending (e.agenda :: agendas) := by
  have keeps := before.keeps d.agenda List.mem_cons_self
  have kept := h.keeps keeps
  have filled := h.filled before.dependents before.dependencies before.contained
  refine ⟨h.dependency before.dependency, fun n s m hm => ?_, filled.1, filled.2.1, filled.2.2,
    fun a ha => ?_⟩
  · have filed := h.filed_subset n s hm
    have owes (owed : e.agenda.Owes n s) : ∃ a ∈ e.agenda :: agendas, a.Owes n s :=
      ⟨_, List.mem_cons_self, owed⟩
    have undone : ¬ d.agenda.Takes n s := fun takes => by
      rw [h.filed_of_takes takes] at hm
      cases hm
    rcases before.dependent n s m filed with there | ⟨a, ha, owed⟩
    · rcases h.dependents there with stays | meant | takes | cleared
      · exact .inl stays
      · right
        rcases e.agenda.owes_or_past meant s with owed | past
        · exact owes owed
        · rw [kept.past n s past] at hm
          cases hm
      · -- The name is forgotten, so what is left to do for it is to empty it.
        cases s with
        | release => cases hm
        | forget => exact absurd takes undone
        | inside =>
          obtain ⟨item, rest, items, due⟩ := takes
          have forgets : (n, .forget) ∈ d.agenda.dues :=
            List.mem_filterMap.mpr ⟨item, items ▸ List.mem_cons_self, due⟩
          rcases keeps.inside n forgets with later | struck
          · exact .inr (owes (.inl ((h.due later).resolve_right undone)))
          · rw [struck] at filed
            cases filed
      · rw [cleared] at hm
        cases hm
    · right
      rcases List.mem_cons.mp ha with rfl | ha
      · exact owes ((h.owes owed).resolve_right undone)
      · exact ⟨a, List.mem_cons_of_mem _ ha, owed⟩
  · rcases List.mem_cons.mp ha with rfl | ha
    · exact kept
    · exact (before.keeps a (List.mem_cons_of_mem _ ha)).mono h.filed_subset

end Dismantling

namespace Registry

theorem agendas_getOrCreate (r : Registry) (n : Name) (factory : Option CallbackId) :
    (r.getOrCreate n factory).progress.agendas = [] := by
  rcases r.getOrCreate_eq n factory with ⟨_, _, h⟩ | ⟨_, _, _, _, _, _, h⟩
  · rw [h]
    rfl
  · rw [h]
    rfl

/-- A teardown that a request asks for has visited no name yet. -/
theorem new_of_request {r : Registry} {q : Request} {a : Agenda}
    (h : a ∈ (r.request q).progress.agendas) : a.visited = ∅ ∧ a.dues = [] := by
  have idle (none : (r.request q).progress.agendas = []) : a.visited = ∅ ∧ a.dues = [] := by
    rw [none] at h
    cases h
  cases q with
  | register n object =>
    obtain ⟨_, _, _, h, _⟩ := r.register_eq n object
    exact idle (congrArg (·.progress.agendas) h)
  | lookup n early =>
    rcases r.lookup_eq n early with ⟨_, h⟩ | ⟨_, h⟩
    · exact idle (congrArg (·.progress.agendas) h)
    · exact idle (congrArg (·.progress.agendas) h)
  | stage n factory =>
    obtain ⟨_, _, _, h, _⟩ := r.stage_eq n factory
    exact idle (congrArg (·.progress.agendas) h)
  | getOrCreate n factory => exact idle (r.agendas_getOrCreate n factory)
  | getOrCreateBare n factory =>
    exact idle ((Progress.agendas_bare _).trans (r.agendas_getOrCreate n factory))
  | destroy n =>
    obtain rfl := List.mem_singleton.mp h
    exact ⟨rfl, rfl⟩
  | destroyAll =>
    obtain rfl := List.mem_singleton.mp h
    refine ⟨rfl, ?_⟩
    simp [Agenda.dues, Agenda.Item.due?, List.filterMap_append, List.filterMap_map]
  | _ => exact idle rfl

end Registry

namespace Session

variable {env : Environment} {s t : Session}

/-- What is filed agrees, but for what the teardowns on the call stack have to do yet. -/
abbrev Mending (s : Session) : Prop := s.world.registry.graph.Mending s.agendas

theorem Public.mending_step (hp : s.Public) (hs : s.step env = some t)
    (apart : s.control.links = true → s.agendas = []) (h : s.Mending) : t.Mending := by
  obtain ⟨a, rest, move, hr, hw, ha⟩ := step_moves hs
  rw [Mending, hr, agendas_of_moves hw ha]
  have idle {c : Control} (hc : s.control = c) (none : c.agenda? = none) :
      s.agendas = s.waiting.flatMap (·.agendas) := by
    rw [agendas, hc, none]
    rfl
  cases move with
  | pass hc =>
    rw [Mending, idle rfl (Control.agenda?_of_passes hc)] at h
    exact h
  | @request q hc =>
    have waiting := idle hc rfl
    cases links : q.links with
    | true =>
      have alone : s.agendas = [] := apart (by rw [hc]; exact links)
      rw [← waiting, alone]
      rw [Mending, alone, Graph.mending_nil] at h
      cases q with
      | depend n d => exact Graph.mending_nil.mpr (h.depend n d)
      | contain c p => exact Graph.mending_nil.mpr (h.contain c p)
      | _ => cases links
    | false =>
      rw [(s.world.registry.request_keeps q).2 links, ← waiting]
      exact h.start fun a => Registry.new_of_request
  | part hc => exact absurd (hp.operation _ hc) (by simp [Operation.isPublic])
  | @teardown agenda hc =>
    have innermost : s.agendas = agenda :: s.waiting.flatMap (·.agendas) := by
      rw [agendas, hc]
      rfl
    rw [Mending, innermost] at h
    by_cases items : agenda.items = []
    · have ended : s.world.registry.teardown agenda = s.world.registry.answer .nothing := by
        rw [Registry.teardown, items]
      rw [ended]
      exact h.tail items
    · obtain ⟨d, step⟩ := Dismantling.exists_step
        (d := ⟨s.world.registry, agenda.items, agenda.visited, []⟩) items
      obtain ⟨progress, _, moves, -, goes⟩ := step.teardown
      have left : progress.agendas = [d.agenda] := by
        rcases goes with ⟨rfl, -⟩ | ⟨_, _, -, rfl, -⟩ <;> rfl
      rw [moves, left]
      exact step.mending h
  | @resume id k w ended rest hc hrest =>
    rw [(s.world.registry.resume_keeps ended w).2, (s.world.registry.resume_agendas ended w).2]
    rw [Mending, idle hc rfl, hrest] at h
    exact h

end Session

namespace Life

/-- In a life in which edges are filed only while no teardown goes on. -/
theorem mending_after (l : Life) {k : Nat}
    (apart : ∀ i < k, (l.after i).control.links = true → (l.after i).agendas = []) :
    (l.after k).Mending := by
  induction k with
  | zero =>
    have idle : l.start.agendas = [] := by
      have none : l.start.control.agenda? = none := Session.agenda?_enter _ _ _ _ _
      rw [Session.agendas, waiting_start, none]
      rfl
    rw [after, Session.Mending, idle, registry_start]
    refine Graph.mending_nil.mpr ⟨?_, ?_, Graph.filled_empty, Graph.filled_empty,
      Graph.filled_empty⟩
    · intro n d
      simp [Registry.ofConfig, Graph.dependentsOf, Graph.dependenciesOf, Graph.members]
    · intro c p hp
      simp [Registry.ofConfig, Graph.containedIn, Graph.members] at hp
  | succ k ih =>
    have before := ih fun i hi => apart i (Nat.lt_succ_of_lt hi)
    cases hs : (l.after k).step l.environment with
    | none =>
      rw [after_halted hs]
      exact before
    | some t =>
      rw [after_succ hs]
      exact (l.reaches_after k).isPublic.mending_step hs (apart k k.lt_succ_self) before

/-- If no edge is filed while a teardown goes on, then whenever none does the indexes of the graph
agree: every edge is filed with both of its ends, every container depends on what it contains, and
no index has an entry without members. -/
theorem indexes_agree (l : Life) {k : Nat}
    (apart : ∀ i < k, (l.after i).control.links = true → (l.after i).agendas = [])
    (idle : (l.after k).agendas = []) :
    let g := (l.after k).world.registry.graph
    (∀ n d, d ∈ g.dependentsOf n ↔ n ∈ g.dependenciesOf d) ∧
    (∀ c x, x ∈ g.containedIn c → c ∈ g.dependentsOf (l.canonical x)) ∧
    (∀ index ∈ [g.dependents, g.dependencies, g.contained],
      ∀ n : Name, index[n]? ≠ some (∅ : NameSet)) ∧
    ∀ n, g.hasDependents n = true ↔ g.dependentsOf n ≠ [] := by
  intro g
  have mirrored : g.Mirrored := Graph.mending_nil.mp (idle ▸ l.mending_after apart)
  refine ⟨mirrored.mirror, ?_, ?_, mirrored.dependents.contains_iff⟩
  · rw [← l.canonical_after k]
    exact mirrored.nested
  · intro index hi
    simp only [List.mem_cons, List.not_mem_nil, or_false] at hi
    rcases hi with rfl | rfl | rfl
    · exact mirrored.dependents
    · exact mirrored.dependencies
    · exact mirrored.contained

/-- The release callback of a dependent destroys the container of the name that is being destroyed;
another container and the name that it holds stay. -/
def crossing : Life :=
  plain
    (.perform (.registry (.depend "a" "b")) fun _ =>
      .perform (.registry (.contain "c" "a")) fun _ =>
      .perform (.registry (.contain "y" "x")) fun _ =>
      .perform (.registry (.disposable "b" (.callback "f"))) fun _ =>
      .perform (.registry (.destroy "a")) fun _ => .finish (.ok .nothing))
    (fun _ => .perform (.registry (.destroy "c")) fun _ => .finish (.ok .nothing))
    ⟨rfl, fun _ => ⟨rfl, fun _ => ⟨rfl, fun _ => ⟨rfl, fun _ => ⟨rfl, fun _ => trivial⟩⟩⟩⟩⟩
    fun _ => ⟨rfl, fun _ => trivial⟩

/-- What was filed for the destroyed names is gone from every index then, and the other container
is still there, with the dependency that comes with it. -/
theorem indexes_agree_crossing :
    (∀ i < 36, (crossing.after i).control.links = true → (crossing.after i).agendas = []) ∧
    (crossing.after 36).agendas = [] ∧
    let g := (crossing.after 36).world.registry.graph
    ((∀ n d, d ∈ g.dependentsOf n ↔ n ∈ g.dependenciesOf d) ∧
      (∀ c x, x ∈ g.containedIn c → c ∈ g.dependentsOf (crossing.canonical x)) ∧
      (∀ index ∈ [g.dependents, g.dependencies, g.contained],
        ∀ n : Name, index[n]? ≠ some (∅ : NameSet)) ∧
      ∀ n, g.hasDependents n = true ↔ g.dependentsOf n ≠ []) ∧
    g.containedIn "y" = ["x"] ∧ g.dependentsOf "x" = ["y"] ∧ g.dependenciesOf "y" = ["x"] ∧
      g.containedIn "c" = [] ∧ g.hasDependents "a" = false ∧ g.dependenciesOf "b" = [] := by
  have apart : ∀ i < 36, (crossing.after i).control.links = true →
      (crossing.after i).agendas = [] := by
    decide +kernel
  have idle : (crossing.after 36).agendas = [] := by decide +kernel
  exact ⟨apart, idle, crossing.indexes_agree apart idle, by decide +kernel⟩

end Life

end Singletons
