import Singletons.Proofs.Handles.Ledger
/-!
# What the destruction of all names leaves

The destruction of all names starts over at every name that has a handle when it begins. Callbacks
may take such a handle away or replace it, but none of them can make it stay: each is gone when all
names have had their turn, and then the registry is emptied, whatever has been added meanwhile.
-/

namespace Singletons

theorem Disposables.mem_names_of_handle? {d : Disposables} {n : Name} {handle : Handle}
    (h : d.handle? n = some handle) : n ∈ d.names := by
  apply Classical.byContradiction
  intro unlisted
  have unbound : d.entries.lookup n = none := by
    rw [List.lookup_eq_none_iff]
    intro entry hm
    rw [bne_iff_ne]
    rintro rfl
    exact unlisted (List.mem_map_of_mem hm)
  cases unbound.symm.trans h

namespace Dealing

/-- The handle that the name has before is not the one that it has afterwards. -/
def Touches (n : Name) : Dealing → Prop
  | binds m _ => m = n
  | takes m => m = n
  | calls _ _ => False
  | leaves => False

theorem mem_names_bind {d : Dealing} {before : Disposables} {n : Name}
    (h : n ∈ (d.bind before).names) (kept : ∀ m handle, d ≠ .binds m handle) :
    n ∈ before.names ∧ d ≠ .takes n := by
  cases d with
  | binds m handle => exact absurd rfl (kept m handle)
  | takes m =>
    rw [bind, Disposables.names_erase, List.mem_filter] at h
    refine ⟨h.1, ?_⟩
    intro same
    obtain rfl := Dealing.takes.inj same
    simp at h
  | calls m handle => exact ⟨h, by simp⟩
  | leaves => exact ⟨h, by simp⟩

end Dealing

theorem Agenda.dealing_visit {n : Name} {rest : List Item} :
    dealing ⟨.visit n :: rest, ∅⟩ = .takes n := by
  simp [dealing]

namespace Registry

/-- The registry when all names have been destroyed. -/
def cleared (r : Registry) : Registry :=
  { r with graph := r.graph.clear, cache := r.cache.clear, destroying := false }

/-- No name is registered or bound, none is linked to another one, and nothing is destroyed. -/
structure Empty (r : Registry) : Prop where
  names : r.request .names = r.answer (.names [])
  lookup : ∀ n early, r.request (.lookup n early) = r.answer (.object none)
  hasDependents : ∀ n, r.request (.hasDependents n) = r.answer (.flag false)
  dependents : ∀ n, r.request (.dependents n) = r.answer (.names [])
  dependencies : ∀ n, r.request (.dependencies n) = r.answer (.names [])
  contained : ∀ n, r.request (.contained n) = r.answer (.names [])
  inDestruction : r.request .inDestruction = r.answer (.flag false)

theorem empty_cleared (r : Registry) : r.cleared.Empty where
  names := rfl
  lookup n early := by
    have absent : r.cleared.cache.lookup n early (r.cleared.flags.isInCreation n) =
        .object none := by
      have unbound : r.cleared.cache.find? n = none := by
        simp [cleared, Cache.clear, Cache.find?]
      have unprovided : r.cleared.cache.provisional[n]? = none := by
        simp [cleared, Cache.clear]
      simp [Cache.lookup, unbound, unprovided]
    rw [request, Registry.lookup, absent]
  hasDependents n := by
    have none : (∅ : NameMap NameSet).contains n = false := Std.ExtTreeMap.contains_empty
    exact congrArg (fun b => r.cleared.answer (.flag b)) none
  dependents n := by
    have none : Graph.members ∅ n = [] := Graph.members_of_not_mem Std.ExtTreeMap.not_mem_empty
    exact congrArg (fun names => r.cleared.answer (.names names)) none
  dependencies n := by
    have none : Graph.members ∅ n = [] := Graph.members_of_not_mem Std.ExtTreeMap.not_mem_empty
    exact congrArg (fun names => r.cleared.answer (.names names)) none
  contained n := by
    have none : Graph.members ∅ n = [] := Graph.members_of_not_mem Std.ExtTreeMap.not_mem_empty
    exact congrArg (fun names => r.cleared.answer (.names names)) none
  inDestruction := rfl

end Registry

namespace Dismantling

/-- The end of the destruction of all names comes last, and empties the registry. -/
theorem Step.last {d e : Dismantling} (h : Step d e) {items : List Agenda.Item}
    (last : d.items = items ++ [.finish]) :
    (∃ items, e.items = items ++ [.finish]) ∨
      d.items = [.finish] ∧ e.items = [] ∧ e.registry = d.registry.cleared := by
  cases items with
  | nil =>
    obtain ⟨r, _, visited, released⟩ := d
    obtain rfl := last
    cases h
    exact .inr ⟨rfl, rfl, rfl⟩
  | cons item items =>
    left
    cases h <;> cases last
    · exact ⟨_ :: items, rfl⟩
    · exact ⟨items, rfl⟩
    · exact ⟨_ ++ items, (List.append_assoc _ _ _).symm⟩
    · exact ⟨items, rfl⟩
    · exact ⟨_ ++ items, (List.append_assoc _ _ _).symm⟩
    · exact ⟨items, rfl⟩
    · exact ⟨items, rfl⟩

theorem Step.items_ne_nil {d e : Dismantling} (h : Step d e) : d.items ≠ [] := by
  cases h <;> exact List.cons_ne_nil _ _

/-- A name that is to be started over at stays so until its turn comes. -/
theorem Step.root_mem {d e : Dismantling} (h : Step d e) {n : Name} (root : .root n ∈ d.items) :
    .root n ∈ e.items ∨ ∃ rest, e.items = .visit n :: rest ∧ e.visited = ∅ := by
  have later {item : Agenda.Item} {rest : List Agenda.Item} (h : .root n ∈ item :: rest)
      (other : item ≠ .root n) : .root n ∈ rest := List.mem_of_ne_of_mem other.symm h
  cases h with
  | @root r m rest =>
    rcases List.mem_cons.mp root with same | later
    · obtain rfl := Agenda.Item.root.inj same
      exact .inr ⟨rest, rfl, rfl⟩
    · exact .inl (List.mem_cons_of_mem _ later)
  | revisit => exact .inl (later root nofun)
  | visit => exact .inl (List.mem_append_right _ (later root nofun))
  | release => exact .inl (later root nofun)
  | inside => exact .inl (List.mem_append_right _ (later root nofun))
  | forget => exact .inl (later root nofun)
  | finish => exact .inl (later root nofun)

end Dismantling

namespace Ledger

variable {g : Ledger} {d : Dealing} {step : Nat} {n : Name}

theorem bound_of_touches (g : Ledger) (step : Nat) (h : d.Touches n) :
    (g.next step d).bound[n]? = none ∨ (g.next step d).bound[n]? = some step := by
  cases d with
  | binds m handle =>
    have same : m = n := h
    rw [bound_binds, if_pos same]
    split
    · exact .inl rfl
    · exact .inr rfl
  | takes m =>
    have same : m = n := h
    rw [bound_takes, if_pos same]
    exact .inl rfl
  | calls m handle => cases h
  | leaves => cases h

theorem bound_of_not_touches (h : ¬ d.Touches n) :
    (g.next step d).bound[n]? = g.bound[n]? := by
  cases d with
  | binds m handle =>
    have other : m ≠ n := h
    rw [bound_binds, if_neg other]
  | takes m =>
    have other : m ≠ n := h
    rw [bound_takes, if_neg other]
  | calls m handle => rfl
  | leaves => rfl

end Ledger

namespace Life

variable {l : Life} {i j k : Nat} {n : Name} {handle : Handle} {reply : Reply}

/-- Between two points the handle of a name has been taken or another one has been bound. -/
def Touched (l : Life) (j i : Nat) (n : Name) : Prop :=
  ∃ x, j < x ∧ x < i ∧ (l.dealing x).Touches n

theorem Touched.mono {i' : Nat} (h : l.Touched j i n) (hi : i ≤ i') : l.Touched j i' n := by
  obtain ⟨x, hj, hx, touches⟩ := h
  exact ⟨x, hj, hx.trans_le hi, touches⟩

/-- A registration is not bound again once its handle has been taken or replaced. -/
theorem unbound_of_touched (own : l.Registers i (n, handle)) (before : i < j)
    (h : l.Touched j k n) : (l.ledger k).bound[n]? ≠ some i := by
  obtain ⟨x, hj, hx, touches⟩ := h
  have fresh {y : Nat} (hy : j < y) (touches : (l.dealing y).Touches n) :
      (l.ledger (y + 1)).bound[n]? ≠ some i := by
    rw [ledger]
    rcases Ledger.bound_of_touches (l.ledger y) y touches with h | h
    · simp [h]
    · rw [h]
      intro same
      obtain rfl := Option.some.inj same
      omega
  induction k, hx using Nat.le_induction with
  | base => exact fresh hj touches
  | succ y hy ih =>
    by_cases again : (l.dealing y).Touches n
    · exact fresh (by omega) again
    · rw [ledger, Ledger.bound_of_not_touches again]
      exact ih

/-- How far the destruction of all names that began at one point has come at another one. -/
structure Clears (l : Life) (j i : Nat) (a : Agenda) : Prop where
  last : (∃ items, a.items = items ++ [.finish]) ∨
    a.items = [] ∧ ∃ r : Registry, (l.after i).world.registry = r.cleared
  names : ∀ n ∈ (l.after j).world.registry.disposables.names, l.Touched j i n ∨
    .root n ∈ a.items ∨ ∃ rest, a = ⟨.visit n :: rest, ∅⟩

/-- A name whose turn comes is visited next, and then its handle is taken. -/
theorem Goes.touches {i' : Nat} {a : Agenda} {d : Dismantling} (h : l.Goes i i' a d) (hi : j < i)
    (turn : .root n ∈ a.items ∨ ∃ rest, a = ⟨.visit n :: rest, ∅⟩) : l.Touched j i' n ∨
      .root n ∈ d.items ∨ ∃ rest, (⟨d.items, d.visited⟩ : Agenda) = ⟨.visit n :: rest, ∅⟩ := by
  rcases turn with root | ⟨rest, same⟩
  · right
    rcases h.step.root_mem root with later | ⟨rest, items, visited⟩
    · exact .inl later
    · exact .inr ⟨rest, by rw [items, visited]⟩
  · left
    refine ⟨i, hi, h.lt, ?_⟩
    rw [dealing, h.control, same, Control.dealing, Agenda.dealing_visit]
    exact rfl

theorem Clears.goes {i' : Nat} {a : Agenda} {d : Dismantling} (clears : l.Clears j i a)
    (hi : j < i) (h : l.Goes i i' a d) : l.Clears j i' ⟨d.items, d.visited⟩ := by
  refine ⟨?_, fun n hn => ?_⟩
  · rcases clears.last with ⟨items, last⟩ | ⟨done, -⟩
    · rcases h.step.last last with still | ⟨finish, done, emptied⟩
      · exact .inl still
      · -- The last item calls nobody, so nothing has happened since it emptied the registry.
        rcases h.meanwhile with ⟨-, registry⟩ | ⟨-, m, id, release⟩
        · exact .inr ⟨done, _, registry.trans emptied⟩
        · cases finish.symm.trans release
    · exact absurd done h.step.items_ne_nil
  · rcases clears.names n hn with touched | turn
    · exact .inl (touched.mono h.lt.le)
    · exact h.touches hi turn

/-- When the destruction of all names is answered, the registry has been emptied and no name has
the handle any more that it had in the beginning. -/
theorem Returns.clears (h : l.Returns j k reply)
    (hc : (l.after j).control = .perform (.registry .destroyAll)) :
    reply = .ok .nothing ∧ (∃ r : Registry, (l.after k).world.registry = r.cleared) ∧
      ∀ n ∈ (l.after j).world.registry.disposables.names, l.Touched j k n := by
  have start : l.Clears j (j + 1)
      ⟨(l.after j).world.registry.disposables.names.reverse.map .root ++ [.finish], ∅⟩ := by
    refine ⟨.inl ⟨_, rfl⟩, fun n hn => .inr (.inl ?_)⟩
    apply List.mem_append_left
    exact List.mem_map_of_mem (List.mem_reverse.mpr hn)
  obtain ⟨answered, i, a, hi, rfl, done, clears, same⟩ :=
    h.of_tears hc rfl start fun i i' a d hi goes clears => clears.goes hi goes
  refine ⟨answered, ?_, fun n hn => ?_⟩
  · rcases clears.last with ⟨items, last⟩ | ⟨-, r, emptied⟩
    · simp [done] at last
    · exact ⟨r, same.trans emptied⟩
  · rcases clears.names n hn with touched | root | ⟨rest, visit⟩
    · exact touched.mono i.le_succ
    · simp [done] at root
    · simp [visit] at done

/-- While nobody gives a name a handle, only such names have one that had it before, and not those
whose handles have been taken. -/
theorem mem_names_since (h : j ≤ k)
    (unarmed : ∀ x, j ≤ x → x < k → ∀ m own, l.dealing x ≠ .binds m own)
    (hn : n ∈ (l.after k).world.registry.disposables.names) :
    n ∈ (l.after j).world.registry.disposables.names ∧
      ∀ x, j ≤ x → x < k → l.dealing x ≠ .takes n := by
  induction k, h using Nat.le_induction with
  | base => exact ⟨hn, fun x hj hx => by omega⟩
  | succ k hk ih =>
    rw [(l.deals k).bound] at hn
    obtain ⟨listed, untaken⟩ := Dealing.mem_names_bind hn (unarmed k hk k.lt_succ_self)
    obtain ⟨first, since⟩ := ih (fun x hj hx => unarmed x hj (hx.trans k.lt_succ_self)) listed
    refine ⟨first, fun x hj hx => ?_⟩
    rcases Nat.lt_succ_iff_lt_or_eq.mp hx with earlier | rfl
    · exact since x hj earlier
    · exact untaken

theorem Returns.idle (h : l.Returns j k reply) {op : Operation}
    (hc : (l.after j).control = .perform op) (top : (l.after j).waiting = []) :
    (l.after k).agendas = [] := by
  rw [agendas_of_answered hc h.control h.stack, Session.agendas, top, hc]
  rfl

/-- A handle that is bound when the destruction of all names begins, and not replaced, is called
once in its course. -/
theorem Returns.called_once (h : l.Returns j k reply)
    (hc : (l.after j).control = .perform (.registry .destroyAll)) (top : (l.after j).waiting = [])
    (own : l.Registers i (n, handle)) (bound : (l.ledger j).bound[n]? = some i)
    (kept : ∀ x, j < x → x < k → ¬ l.Replaces x i) :
    (l.ledger j).called.count i = 0 ∧ (l.ledger k).called.count i = 1 := by
  have there : i ∈ (l.ledger j).bound[n]?.toList := by
    rw [bound]
    exact List.mem_cons_self
  have before : i < j := own.lt_of_mem (List.mem_append_left _ there)
  have first := (l.balanced j).once n handle i own
  have last := (l.balanced k).once n handle i own
  rw [if_pos before, Ledger.places] at first
  rw [if_pos (before.trans h.later), Ledger.places, taken_of_idle (h.idle hc top)] at last
  simp only [List.count_append, List.count_nil] at first last
  have positive := List.count_pos_iff.mpr there
  -- By now it has not been replaced and is not bound any more, so the one place left is the calls.
  have unreplaced : i ∉ (l.ledger k).replaced := by
    intro replaced
    obtain ⟨x, hx, replaces⟩ := mem_replaced.mp replaced
    rcases Nat.lt_trichotomy x j with earlier | rfl | later
    · have twice := List.count_pos_iff.mpr (mem_replaced.mpr ⟨x, earlier, replaces⟩)
      omega
    · obtain ⟨m, other, hc', -⟩ := replaces
      cases hc.symm.trans hc'
    · exact kept x later hx replaces
  have unbound : i ∉ (l.ledger k).bound[n]?.toList := by
    rw [Option.mem_toList]
    obtain ⟨-, -, touched⟩ := h.clears hc
    obtain ⟨_, _, held⟩ := (l.balanced j).registers bound
    exact unbound_of_touched own before (touched n (Disposables.mem_names_of_handle? held))
  rw [List.count_eq_zero.mpr unreplaced, List.count_eq_zero.mpr unbound] at last
  omega

end Life

namespace Session

/-- To destroy all names of an empty registry without handles calls nobody and changes nothing. -/
theorem destroys_cleared (env : Environment) {w : World} {r : Registry}
    (cleared : w.registry = r.cleared) (unbound : w.registry.disposables.names = []) :
    ∃ w', Destroys env w .destroyAll w' [] ∧ w'.registry = w.registry ∧ w'.calls = w.calls := by
  let begun := w.advance (w.registry.request .destroyAll)
  let ended := begun.world.advance (begun.world.registry.teardown ⟨[.finish], ∅⟩)
  have starts : (w.registry.request .destroyAll).progress = .tearing ⟨[.finish], ∅⟩ := by
    show Progress.tearing ⟨w.registry.disposables.names.reverse.map .root ++ [.finish], ∅⟩ = _
    rw [unbound]
    rfl
  have registry : ended.world.registry = w.registry := by
    have destroying : begun.world.registry = { w.registry with destroying := true } :=
      w.registry_advance _
    have emptied : ended.world.registry = begun.world.registry.cleared :=
      begun.world.registry_advance _
    rw [emptied, destroying, cleared]
    rfl
  have calls : ended.world.calls = w.calls :=
    (begun.world.calls_advance _).trans (w.calls_advance _)
  have opening : Event.Releases (.began (.registry .destroyAll) :: begun.events) [] :=
    .cons rfl rfl (w.advance_events _)
  have closing : Event.Releases ended.events [] := begun.world.advance_events _
  have requested : Leads env w (.perform (.registry .destroyAll)) begun.world _ _ :=
    leads_requested starts
  have goes := requested.trans ((leads_tearing rfl rfl).trans (leads_done ended.world ∅))
  have answer : Event.Releases [.answered (.ok .nothing)] [] := ⟨rfl, rfl⟩
  have silent := opening.append (closing.append answer)
  exact ⟨ended.world, ⟨_, silent, goes⟩, registry, calls⟩

end Session

namespace Life

variable {j k : Nat} {reply : Reply}

/-- When a destruction of all names that nothing waits for is answered, the registry is empty,
whatever its callbacks have done. Every handle that was bound in the beginning and not replaced
meanwhile has been called once. If no handle has been bound meanwhile either, none is bound any
more, and to destroy all names again calls nobody and changes nothing. -/
theorem destroyAll_empties (l : Life) (top : (l.after j).waiting = [])
    (hc : (l.after j).control = .perform (.registry .destroyAll)) (h : l.Returns j k reply) :
    (l.after k).world.registry.Empty ∧
    (∃ since released, (l.ledger k).called = since ++ (l.ledger j).called ∧
      List.Forall₂ l.Registers since released ∧
      (∀ before, Event.Releases (l.after j).history before →
        Event.Releases (l.after k).history (released ++ before)) ∧
      ∀ n handle, (l.after j).world.registry.Bears n handle →
        ∃ i, (l.ledger j).bound[n]? = some i ∧ l.Registers i (n, handle) ∧
          ((∀ x, j < x → x < k → ¬ l.Replaces x i) → since.count i = 1)) ∧
    ((∀ x, j < x → x < k → ∀ n handle,
        (l.after x).control ≠ .perform (.registry (.disposable n handle))) →
      (l.after k).world.registry.disposables.entries = [] ∧
        ∃ w', Session.Destroys l.environment (l.after k).world .destroyAll w' [] ∧
          w'.registry = (l.after k).world.registry ∧ w'.calls = (l.after k).world.calls) := by
  obtain ⟨-, ⟨r, cleared⟩, touched⟩ := h.clears hc
  refine ⟨cleared ▸ r.empty_cleared, ?_, fun unarmed => ?_⟩
  · obtain ⟨since, released, called, registered, record⟩ := l.exists_called_since h.later.le
    refine ⟨since, released, called, registered, record, fun n handle bears => ?_⟩
    have entries := (l.balanced j).bound n
    rw [Disposables.held, bears.1, Option.getD_some, Handle.calls_of_ne_null bears.2] at entries
    obtain ⟨i, rest, own, -, there⟩ := List.forall₂_cons_right_iff.mp entries
    have bound : (l.ledger j).bound[n]? = some i := by
      rw [← Option.mem_toList, there]
      exact List.mem_cons_self
    refine ⟨i, bound, own, fun kept => ?_⟩
    obtain ⟨before, after⟩ := h.called_once hc top own bound kept
    rw [called, List.count_append] at after
    omega
  · have unnamed : (l.after k).world.registry.disposables.names = [] := by
      rw [List.eq_nil_iff_forall_not_mem]
      intro n hn
      have none : ∀ x, j ≤ x → x < k → ∀ m own, l.dealing x ≠ .binds m own := by
        intro x hj hx m own binds
        have control := Control.dealing_eq_binds.mp binds
        rcases hj.lt_or_eq with later | rfl
        · exact unarmed x later hx m own control
        · cases hc.symm.trans control
      obtain ⟨listed, untaken⟩ := mem_names_since h.later.le none hn
      obtain ⟨x, hj, hx, touches⟩ := touched n listed
      cases hd : l.dealing x with
      | binds m own => exact none x hj.le hx m own hd
      | takes m =>
        rw [hd] at touches
        exact untaken x hj.le hx (hd.trans (congrArg Dealing.takes touches))
      | calls m own =>
        rw [hd] at touches
        exact touches
      | leaves =>
        rw [hd] at touches
        exact touches
    refine ⟨List.map_eq_nil_iff.mp unnamed, ?_⟩
    exact Session.destroys_cleared l.environment cleared unnamed

/-- A release callback binds an object, links names, destroys all names again, binds another object
and throws. -/
def reentrant : Life :=
  plain
    (.perform (.registry (.disposable "a" .idle)) fun _ =>
      .perform (.registry (.disposable "b" (.callback "r"))) fun _ =>
      .perform (.registry .destroyAll) fun _ => .finish (.ok .nothing))
    (fun _ => .perform (.registry (.register "b" (some "o"))) fun _ =>
      .perform (.registry (.depend "b" "c")) fun _ => .perform (.registry .destroyAll) fun _ =>
      .perform (.registry (.register "d" (some "o"))) fun _ => .finish (.error (.foreign 3)))
    ⟨rfl, fun _ => ⟨rfl, fun _ => ⟨rfl, fun _ => trivial⟩⟩⟩
    fun _ => ⟨rfl, fun _ => ⟨rfl, fun _ => ⟨rfl, fun _ => ⟨rfl, fun _ => trivial⟩⟩⟩⟩

/-- Both handles have been called once, the second one by the destruction inside. -/
theorem emptied_reentrant : (reentrant.after 4).waiting = [] ∧
    (reentrant.after 4).control = .perform (.registry .destroyAll) ∧
    reentrant.Returns 4 33 (.ok .nothing) ∧ (reentrant.after 33).world.registry.Empty ∧
    (∃ since released, List.Forall₂ reentrant.Registers since released ∧
      since.count 0 = 1 ∧ since.count 2 = 1) ∧
    (reentrant.after 33).world.registry.disposables.entries = [] ∧
    ∃ w', Session.Destroys reentrant.environment (reentrant.after 33).world .destroyAll w' [] ∧
      w'.registry = (reentrant.after 33).world.registry := by
  have returns : reentrant.Returns 4 33 (.ok .nothing) := by
    have starts : (reentrant.after 4).control = .perform (.registry .destroyAll) := rfl
    refine returns_of_busy starts (by decide) rfl rfl ?_
    decide +kernel
  have unarmed : ∀ x, 4 < x → x < 33 → ∀ n handle,
      (reentrant.after x).control ≠ .perform (.registry (.disposable n handle)) := by
    intro x hj hx n handle hc
    have unbinding : ∀ x < 33, 4 < x → ((reentrant.dealing x).bind {}).entries = [] := by
      decide +kernel
    have none := unbinding x hx hj
    rw [dealing, Control.dealing_eq_binds.mpr hc] at none
    cases none
  have kept (i x : Nat) (hj : 4 < x) (hx : x < 33) : ¬ reentrant.Replaces x i := by
    rintro ⟨n, handle, hc, -⟩
    exact unarmed x hj hx n handle hc
  obtain ⟨empty, ⟨since, released, -, registered, -, once⟩, again⟩ :=
    reentrant.destroyAll_empties (j := 4) rfl rfl returns
  obtain ⟨unbound, w', destroys, same, -⟩ := again unarmed
  obtain ⟨i, first, -, called⟩ := once "a" .idle ⟨rfl, by decide⟩
  obtain ⟨i', second, -, called'⟩ := once "b" (.callback "r") ⟨rfl, by decide⟩
  have zero : (reentrant.ledger 4).bound["a"]? = some 0 := rfl
  have two : (reentrant.ledger 4).bound["b"]? = some 2 := rfl
  obtain rfl := Option.some.inj (first.symm.trans zero)
  obtain rfl := Option.some.inj (second.symm.trans two)
  exact ⟨rfl, rfl, returns, empty, ⟨since, released, registered, called (kept 0), called' (kept 2)⟩,
    unbound, w', destroys, same⟩

end Life

end Singletons
