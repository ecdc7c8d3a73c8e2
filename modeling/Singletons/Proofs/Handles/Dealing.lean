import Singletons.Proofs.Registry.Destruction
import Singletons.Proofs.Teardown.Quiet
/-!
# What operations do with release handles

A request binds a handle to a name. A teardown takes the handle of a name, and calls what it has
taken. No other operation has to do with handles. Those that were taken and not called yet are a
stack, since the teardowns that took them nest.
-/

namespace Singletons

namespace Disposables

/-- The handle to call for a name; a null handle counts as none. -/
def held (d : Disposables) (n : Name) : List (Name × Handle) :=
  ((d.handle? n).getD .null).calls n

theorem held_insert (d : Disposables) (n m : Name) (handle : Handle) :
    (d.insert n handle).held m = if m = n then handle.calls n else d.held m := by
  rw [held, handle?_insert]
  split
  · subst m
    rfl
  · rfl

theorem held_erase (d : Disposables) (n m : Name) :
    (d.erase n).held m = if m = n then [] else d.held m := by
  rw [held, handle?_erase]
  split
  · rfl
  · rfl

end Disposables

inductive Dealing where
  | binds (n : Name) (handle : Handle)
  /-- A teardown takes whatever is bound to the name, to call it later. -/
  | takes (n : Name)
  | calls (n : Name) (handle : Handle)
  | leaves
  deriving DecidableEq

namespace Dealing

/-- The handles that are bound afterwards. -/
def bind (before : Disposables) : Dealing → Disposables
  | binds n handle => before.insert n handle
  | takes n => before.erase n
  | calls _ _ => before
  | leaves => before

def taken (before : Disposables) : Dealing → List (Name × Handle)
  | takes n => before.held n
  | _ => []

def called : Dealing → List (Name × Handle)
  | calls n handle => [(n, handle)]
  | _ => []

theorem reverse_called (d : Dealing) : d.called.reverse = d.called := by
  cases d <;> rfl

end Dealing

/-- The handle that an item calls when its turn comes. -/
def Agenda.Item.calls : Agenda.Item → List (Name × Handle)
  | release n handle => handle.calls n
  | _ => []

namespace Agenda

/-- The handles that were taken and are still to be called, the next one first. -/
def pending (a : Agenda) : List (Name × Handle) := a.items.flatMap (·.calls)

def dealing (a : Agenda) : Dealing :=
  match a.items with
  | .visit n :: _ => if a.visited.contains n then .leaves else .takes n
  | .release _ .null :: _ => .leaves
  | .release n handle :: _ => .calls n handle
  | _ => .leaves

theorem pending_visits (names : List Name) (items : List Item) (visited : NameSet) :
    pending ⟨names.map .visit ++ items, visited⟩ = pending ⟨items, visited⟩ := by
  induction names with
  | nil => rfl
  | cons n names ih => exact ih

theorem pending_roots (names : List Name) (visited : NameSet) :
    pending ⟨names.map .root ++ [.finish], visited⟩ = [] := by
  induction names with
  | nil => rfl
  | cons n names ih => exact ih

end Agenda

def Request.dealing : Request → Dealing
  | disposable n handle => .binds n handle
  | _ => .leaves

def Control.dealing : Control → Dealing
  | perform (.registry q) => q.dealing
  | teardown agenda => agenda.dealing
  | _ => .leaves

theorem Control.dealing_eq_binds {c : Control} {n : Name} {handle : Handle} :
    c.dealing = .binds n handle ↔ c = .perform (.registry (.disposable n handle)) := by
  constructor
  · intro h
    cases c with
    | perform op =>
      cases op with
      | registry q =>
        cases q with
        | disposable m own =>
          obtain ⟨rfl, rfl⟩ := Dealing.binds.inj h
          rfl
        | _ => cases h
      | _ => cases h
    | teardown agenda =>
      simp only [dealing, Agenda.dealing] at h
      split at h
      · split at h <;> cases h
      all_goals cases h
    | _ => cases h
  · rintro rfl
    rfl

theorem Control.dealing_of_passes {c : Control} (h : c.passes) : c.dealing = .leaves := by
  cases c with
  | perform op => cases op <;> first | rfl | cases h
  | teardown agenda => cases h
  | _ => rfl

theorem Control.agenda?_of_passes {c : Control} (h : c.passes) : c.agenda? = none := by
  cases c with
  | teardown agenda => cases h
  | _ => rfl

/-- The release callback that is called to go on. -/
def Progress.call? : Progress → Option (Name × CallbackId)
  | calling id (.releasing n _) => some (n, id)
  | _ => none

def Progress.pending (p : Progress) : List (Name × Handle) := p.agendas.flatMap (·.pending)

theorem Progress.pending_tearing (agenda : Agenda) : (tearing agenda).pending = agenda.pending :=
  List.append_nil _

theorem Progress.pending_releasing (id : CallbackId) (n : Name) (rest : Agenda) :
    (calling id (.releasing n rest)).pending = rest.pending :=
  List.append_nil _

theorem Progress.agendas_bare (p : Progress) : p.bare.agendas = p.agendas := by
  cases p with
  | calling id waiting => cases waiting <;> rfl
  | _ => rfl

theorem Progress.call?_bare (p : Progress) : p.bare.call? = p.call? := by
  cases p with
  | calling id waiting => cases waiting <;> rfl
  | _ => rfl

/-- An operation deals with the handles in this way, on a registry where these are to be called. -/
structure Advance.Deals (a : Advance) (r : Registry) (before : List (Name × Handle))
    (d : Dealing) : Prop where
  bound : a.registry.disposables = d.bind r.disposables
  pending : d.called ++ a.progress.pending = d.taken r.disposables ++ before
  released : a.notes.filterMap Note.release? = d.called
  called : a.progress.call?.toList = Handle.callsIn d.called

namespace Registry

/-- What is answered or waits for the factory of a name leaves all handles alone. -/
theorem deals_of_idle {r : Registry} {a : Advance} (bound : a.registry.disposables = r.disposables)
    (idle : a.progress.agendas = []) (silent : a.notes.filterMap Note.release? = [])
    (uncalled : a.progress.call? = none) : a.Deals r [] .leaves where
  bound := bound
  pending := by
    rw [Progress.pending, idle]
    rfl
  released := silent
  called := by
    rw [uncalled]
    rfl

/-- Whatever a creation asks for, it notes no release. -/
theorem silent_getOrCreate (r : Registry) (n : Name) (factory : Option CallbackId) :
    (r.getOrCreate n factory).notes.filterMap Note.release? = [] := by
  unfold getOrCreate
  split
  · rfl
  · split
    · rfl
    · split
      · rfl
      · split <;> rfl

theorem silent_register (r : Registry) (n : Name) (object : Option Object) :
    (r.register n object).notes.filterMap Note.release? = [] := by
  unfold register
  split
  · rfl
  · split
    · rfl
    · split <;> rfl

theorem silent_stage (r : Registry) (n : Name) (factory : Option CallbackId) :
    (r.stage n factory).notes.filterMap Note.release? = [] := by
  unfold stage
  split
  · rfl
  · split <;> rfl

theorem silent_endCreation (r : Registry) (n : Name) (outermost : Bool) :
    (r.endCreation n outermost).2.filterMap Note.release? = [] := by
  unfold endCreation unmark
  dsimp only
  split <;> rfl

theorem silent_failCreation (r : Registry) (n : Name) (outermost : Bool) (fault : Fault) :
    (r.failCreation n outermost fault).notes.filterMap Note.release? = [] :=
  r.silent_endCreation n outermost

theorem silent_created (r : Registry) (n : Name) (outermost : Bool)
    (ended : Except Thrown Returned) :
    (r.created n outermost ended).notes.filterMap Note.release? = [] := by
  cases ended with
  | error thrown =>
    rw [created]
    split
    · exact r.silent_failCreation n outermost _
    · exact r.silent_endCreation n outermost
  | ok returned =>
    rw [created]
    cases returned.asOutcome with
    | created object =>
      cases object with
      | none => exact r.silent_failCreation n outermost _
      | some o => exact r.silent_endCreation n outermost
    | alreadyPresent fault =>
      dsimp only
      split
      · exact r.silent_endCreation n outermost
      · exact r.silent_endCreation n outermost
    | failed fault => exact r.silent_failCreation n outermost _

theorem silent_madeEarly (r : Registry) (n : Name) (f : CallbackId)
    (ended : Except Thrown Returned) :
    (r.madeEarly n f ended).notes.filterMap Note.release? = [] := by
  cases ended with
  | error thrown => rfl
  | ok returned =>
    rw [madeEarly]
    dsimp only
    split <;> rfl

theorem getOrCreate_deals (r : Registry) (n : Name) (factory : Option CallbackId) :
    (r.getOrCreate n factory).Deals r [] .leaves := by
  have silent := r.silent_getOrCreate n factory
  rcases r.getOrCreate_eq n factory with ⟨_, _, h⟩ | ⟨_, _, _, _, _, _, h⟩
  · rw [h] at silent ⊢
    exact deals_of_idle rfl rfl silent rfl
  · rw [h] at silent ⊢
    exact deals_of_idle rfl rfl silent rfl

theorem deals_bare {r : Registry} {a : Advance} {before : List (Name × Handle)} {d : Dealing}
    (h : a.Deals r before d) : a.bare.Deals r before d where
  bound := h.bound
  pending := by
    rw [Progress.pending, Advance.bare, Progress.agendas_bare]
    exact h.pending
  released := h.released
  called := by
    rw [Advance.bare, Progress.call?_bare]
    exact h.called

/-- Of all requests only giving a name a handle deals with handles, and none calls one. -/
theorem request_deals (r : Registry) (q : Request) : (r.request q).Deals r [] q.dealing := by
  cases q with
  | register n object =>
    have silent := r.silent_register n object
    obtain ⟨_, _, _, h, -⟩ := r.register_eq n object
    rw [request]
    rw [h] at silent ⊢
    exact deals_of_idle rfl rfl silent rfl
  | lookup n early =>
    rw [request]
    rcases r.lookup_eq n early with ⟨_, h⟩ | ⟨_, h⟩
    · rw [h]
      exact deals_of_idle rfl rfl rfl rfl
    · rw [h]
      exact deals_of_idle rfl rfl rfl rfl
  | stage n factory =>
    have silent := r.silent_stage n factory
    obtain ⟨_, _, _, h, -⟩ := r.stage_eq n factory
    rw [request]
    rw [h] at silent ⊢
    exact deals_of_idle rfl rfl silent rfl
  | getOrCreate n factory => exact r.getOrCreate_deals n factory
  | getOrCreateBare n factory => exact deals_bare (r.getOrCreate_deals n factory)
  | suppress faults =>
    obtain ⟨_, h⟩ := r.foldl_suppress_eq faults
    rw [request, h]
    exact deals_of_idle rfl rfl rfl rfl
  | disposable n handle => exact ⟨rfl, rfl, rfl, rfl⟩
  | destroy n => exact ⟨rfl, Progress.pending_tearing _, rfl, rfl⟩
  | destroyAll =>
    refine ⟨rfl, ?_, rfl, rfl⟩
    rw [request, destroyAll, Progress.pending_tearing, Agenda.pending_roots]
    rfl
  | _ => exact deals_of_idle rfl rfl rfl rfl

theorem teardown_deals (r : Registry) (agenda : Agenda) :
    (r.teardown agenda).Deals r agenda.pending agenda.dealing := by
  obtain ⟨items, visited⟩ := agenda
  cases items with
  | nil => exact ⟨rfl, rfl, rfl, rfl⟩
  | cons item rest =>
    cases item with
    | root n => exact ⟨rfl, Progress.pending_tearing _, rfl, rfl⟩
    | visit n =>
      by_cases seen : visited.contains n = true
      · simp only [teardown, Agenda.dealing, seen, if_true]
        exact ⟨rfl, Progress.pending_tearing _, rfl, rfl⟩
      · simp only [teardown, Agenda.dealing, seen, Bool.false_eq_true, if_false]
        refine ⟨rfl, ?_, ?_, rfl⟩
        · rw [Progress.pending_tearing, Agenda.pending_visits]
          rfl
        · split <;> rfl
    | release n handle =>
      cases handle with
      | null => exact ⟨rfl, Progress.pending_tearing _, rfl, rfl⟩
      | idle =>
        refine ⟨rfl, ?_, rfl, rfl⟩
        show (n, Handle.idle) :: (Progress.tearing ⟨rest, visited⟩).pending = _
        rw [Progress.pending_tearing]
        rfl
      | callback id =>
        refine ⟨rfl, ?_, rfl, rfl⟩
        show (n, Handle.callback id) ::
          (Progress.calling id (.releasing n ⟨rest, visited⟩)).pending = _
        rw [Progress.pending_releasing]
        rfl
    | inside n =>
      refine ⟨rfl, ?_, rfl, rfl⟩
      rw [teardown, Progress.pending_tearing, Agenda.pending_visits]
      rfl
    | forget n => exact ⟨rfl, Progress.pending_tearing _, rfl, rfl⟩
    | finish => exact ⟨rfl, Progress.pending_tearing _, rfl, rfl⟩

/-- What goes on after a callback has to call what was taken before it, and nothing else. -/
theorem resume_deals (r : Registry) (ended : Except Thrown Returned) (w : Waiting) :
    (r.resume ended w).Deals r (w.agendas.flatMap (·.pending)) .leaves := by
  cases w with
  | creating n outermost bare =>
    have full : (r.created n outermost ended).Deals r [] .leaves := by
      have silent := r.silent_created n outermost ended
      obtain ⟨_, _, h⟩ := r.created_eq n outermost ended
      rw [h] at silent ⊢
      exact deals_of_idle rfl rfl silent rfl
    cases bare with
    | false => exact full
    | true => exact deals_bare full
  | promoting n f =>
    have silent := r.silent_madeEarly n f ended
    obtain ⟨_, _, _, h, -⟩ := r.madeEarly_eq n f ended
    rw [resume]
    rw [h] at silent ⊢
    exact deals_of_idle rfl rfl silent rfl
  | releasing n rest =>
    have silent := r.release?_released n rest ended
    obtain ⟨_, _, h⟩ := r.released_eq n rest ended
    rw [resume]
    rw [h] at silent ⊢
    exact ⟨rfl, rfl, silent, rfl⟩

end Registry

end Singletons
