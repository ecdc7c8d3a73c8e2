import Singletons.Proofs.Handles.Steps
import Singletons.Proofs.Session.Return
import Singletons.Proofs.Teardown.Acyclic
/-!
# Where every registered handle is

The registration of a handle is known by the step that makes it. A ledger follows it from the name
that it is bound to into the teardown that takes it, and up to the call. A handle that another one
replaces is never called.
-/

namespace Singletons

/-- Where the registrations of handles are. -/
structure Ledger where
  bound : NameMap Nat := ∅
  replaced : List Nat := []
  /-- Taken by the teardowns on the call stack and not called yet, the next one first. -/
  taken : List Nat := []
  /-- Called, the last one first. -/
  called : List Nat := []

namespace Ledger

/-- The registration whose handle is called in a step. -/
def calls (g : Ledger) : Dealing → List Nat
  | .calls _ _ => g.taken.head?.toList
  | _ => []

/-- What becomes of the registrations in a step; a null handle is bound as none. -/
def next (g : Ledger) (step : Nat) : Dealing → Ledger
  | .binds n handle =>
    { g with
      bound := if handle = .null then g.bound.erase n else g.bound.insert n step
      replaced := g.bound[n]?.toList ++ g.replaced }
  | .takes n => { g with bound := g.bound.erase n, taken := g.bound[n]?.toList ++ g.taken }
  | .calls n handle =>
    { g with taken := g.taken.tail, called := g.calls (.calls n handle) ++ g.called }
  | .leaves => g

/-- Everywhere a registration for the name can be. -/
def places (g : Ledger) (n : Name) : List Nat :=
  g.bound[n]?.toList ++ (g.replaced ++ (g.taken ++ g.called))

theorem bound_binds (g : Ledger) (step : Nat) (n m : Name) (handle : Handle) :
    (g.next step (.binds n handle)).bound[m]? =
      if n = m then (if handle = .null then none else some step) else g.bound[m]? := by
  simp only [next]
  split
  · rw [NameMap.getElem?_erase]
  · rw [NameMap.getElem?_insert]

theorem bound_takes (g : Ledger) (step : Nat) (n m : Name) :
    (g.next step (.takes n)).bound[m]? = if n = m then none else g.bound[m]? :=
  NameMap.getElem?_erase _ _ _

theorem called_next (g : Ledger) (step : Nat) (d : Dealing) :
    (g.next step d).called = g.calls d ++ g.called := by
  cases d <;> rfl

/-- A step moves a registration from one place to another one, and adds its own one only. -/
theorem count_next (g : Ledger) (d : Dealing) (step : Nat) {j : Nat} {n : Name}
    (elsewhere : ∀ m, m ≠ n → g.bound[m]? ≠ some j)
    (own : j = step → ∃ handle, d = .binds n handle ∧ handle ≠ .null) :
    ((g.next step d).places n).count j =
      (g.places n).count j + if j = step then 1 else 0 := by
  have unbound {m : Name} (hm : m ≠ n) : g.bound[m]?.toList.count j = 0 := by
    rw [List.count_eq_zero, Option.mem_toList]
    exact elsewhere m hm
  by_cases new : j = step
  · obtain ⟨handle, rfl, called⟩ := own new
    have entry := g.bound_binds step n n handle
    rw [if_pos rfl, if_neg called] at entry
    have replaced : (g.next step (.binds n handle)).replaced =
        g.bound[n]?.toList ++ g.replaced := rfl
    simp only [places, entry, replaced, List.count_append]
    simp [next, new]
    omega
  · rw [if_neg new, Nat.add_zero]
    cases d with
    | binds m handle =>
      have entry := g.bound_binds step m n handle
      have replaced : (g.next step (.binds m handle)).replaced =
          g.bound[m]?.toList ++ g.replaced := rfl
      simp only [places, entry, replaced, List.count_append]
      by_cases hm : m = n
      · subst m
        rw [if_pos rfl]
        by_cases null : handle = .null
        · simp [null, next]
          omega
        · simp [null, next, Ne.symm new]
          omega
      · simp [hm, unbound hm, next]
    | takes m =>
      have entry := g.bound_takes step m n
      have taken : (g.next step (.takes m)).taken = g.bound[m]?.toList ++ g.taken := rfl
      simp only [places, entry, taken, List.count_append]
      by_cases hm : m = n
      · subst m
        simp [next]
        omega
      · simp [hm, unbound hm, next]
    | calls m handle =>
      simp only [places, next, calls, List.count_append]
      cases g.taken with
      | nil => simp
      | cons i taken =>
        simp [List.count_cons]
        omega
    | leaves => rfl

end Ledger

namespace Life

variable {l : Life} {i j k : Nat} {n : Name} {handle : Handle}

/-- The step gives a name a handle that can be called. -/
def Registers (l : Life) (j : Nat) (entry : Name × Handle) : Prop :=
  (l.after j).control = .perform (.registry (.disposable entry.1 entry.2)) ∧ entry.2 ≠ .null

def ledger (l : Life) : Nat → Ledger
  | 0 => {}
  | k + 1 => (l.ledger k).next k (l.dealing k)

/-- The step gives a name another handle while that of the registration is bound to it. -/
def Replaces (l : Life) (i j : Nat) : Prop :=
  ∃ n handle, (l.after i).control = .perform (.registry (.disposable n handle)) ∧
    (l.ledger i).bound[n]? = some j

theorem Registers.dealing {entry : Name × Handle} (h : l.Registers j entry) :
    l.dealing j = .binds entry.1 entry.2 := Control.dealing_eq_binds.mpr h.1

/-- A step registers one handle at most. -/
theorem Registers.unique {entry other : Name × Handle} (h : l.Registers j entry)
    (k : l.Registers j other) : entry = other := by
  obtain ⟨names, handles⟩ := Dealing.binds.inj (h.dealing.symm.trans k.dealing)
  exact Prod.ext names handles

theorem mem_replaced : j ∈ (l.ledger k).replaced ↔ ∃ i < k, l.Replaces i j := by
  induction k with
  | zero => simp [ledger]
  | succ k ih =>
    have grown : (∃ i < k + 1, l.Replaces i j) ↔ l.Replaces k j ∨ ∃ i < k, l.Replaces i j := by
      simp only [Nat.lt_succ_iff_lt_or_eq, or_and_right, exists_or, exists_eq_left, or_comm]
    have now : l.Replaces k j ↔
        ∃ n handle, l.dealing k = .binds n handle ∧ (l.ledger k).bound[n]? = some j := by
      simp only [Replaces, dealing, Control.dealing_eq_binds]
    rw [grown, now, ← ih, ledger]
    cases l.dealing k with
    | binds n handle => simp [Ledger.next, and_assoc]
    | takes n => simp [Ledger.next]
    | calls n handle => simp [Ledger.next]
    | leaves => simp [Ledger.next]

/-- The ledger is about the handles that are there, and every registration is in one place. -/
structure Balanced (l : Life) (k : Nat) : Prop where
  bound : ∀ n, List.Forall₂ l.Registers (l.ledger k).bound[n]?.toList
    ((l.after k).world.registry.disposables.held n)
  taken : List.Forall₂ l.Registers (l.ledger k).taken (l.after k).pending
  once : ∀ n handle j, l.Registers j (n, handle) →
    ((l.ledger k).places n).count j = if j < k then 1 else 0

namespace Balanced

/-- What the ledger says to be bound was registered for the name and is the handle of the name. -/
theorem registers (h : l.Balanced k) (bound : (l.ledger k).bound[n]? = some j) :
    ∃ handle, l.Registers j (n, handle) ∧
      (l.after k).world.registry.disposables.handle? n = some handle := by
  have entries := h.bound n
  rw [bound] at entries
  cases hn : (l.after k).world.registry.disposables.handle? n with
  | none =>
    rw [Disposables.held, hn] at entries
    cases entries
  | some handle =>
    rw [Disposables.held, hn] at entries
    cases handle with
    | null => cases entries
    | idle => exact ⟨.idle, (List.forall₂_cons.mp entries).1, rfl⟩
    | callback id => exact ⟨.callback id, (List.forall₂_cons.mp entries).1, rfl⟩

theorem bound_unique (h : l.Balanced k) (own : l.Registers j (n, handle)) {m : Name} (hm : m ≠ n) :
    (l.ledger k).bound[m]? ≠ some j := by
  intro bound
  obtain ⟨_, other, -⟩ := h.registers bound
  exact hm (Prod.mk.inj (other.unique own)).1

theorem initial (l : Life) : l.Balanced 0 := by
  have fresh (n : Name) : l.start.world.registry.disposables.held n = [] := by
    rw [l.registry_start]
    rfl
  have idle : l.start.pending = [] := by
    rw [Session.pending, Session.agendas, waiting_start, start, Session.start,
      Session.agenda?_enter]
    rfl
  refine ⟨fun n => ?_, ?_, fun n handle j _ => ?_⟩
  · rw [after, fresh]
    exact .nil
  · rw [after, idle]
    exact .nil
  · simp [ledger, Ledger.places]

/-- Whatever a step deals with, every registration stays in one place. -/
theorem once_succ (h : l.Balanced k) (own : l.Registers j (n, handle)) :
    ((l.ledger (k + 1)).places n).count j = if j < k + 1 then 1 else 0 := by
  have moved := (l.ledger k).count_next (l.dealing k) k (fun _ hm => h.bound_unique own hm)
    (fun hj => ⟨handle, hj ▸ own.dealing, own.2⟩)
  rw [ledger, moved, h.once n handle j own]
  split <;> split <;> split <;> omega

theorem bound_succ (h : l.Balanced k) (n : Name) :
    List.Forall₂ l.Registers (l.ledger (k + 1)).bound[n]?.toList
      ((l.after (k + 1)).world.registry.disposables.held n) := by
  rw [(l.deals k).bound, ledger]
  cases hd : l.dealing k with
  | binds m handle =>
    rw [Ledger.bound_binds, Dealing.bind, Disposables.held_insert]
    by_cases hm : m = n
    · subst m
      rw [if_pos rfl, if_pos rfl]
      by_cases null : handle = .null
      · subst handle
        exact .nil
      · rw [if_neg null, Handle.calls_of_ne_null null]
        exact .cons ⟨Control.dealing_eq_binds.mp hd, null⟩ .nil
    · rw [if_neg hm, if_neg (Ne.symm hm)]
      exact h.bound n
  | takes m =>
    rw [Ledger.bound_takes, Dealing.bind, Disposables.held_erase]
    by_cases hm : m = n
    · rw [if_pos hm, if_pos hm.symm]
      exact .nil
    · rw [if_neg hm, if_neg (Ne.symm hm)]
      exact h.bound n
  | calls m handle => exact h.bound n
  | leaves => exact h.bound n

/-- The handle that a step calls is the next one of those that were taken. -/
theorem taken_succ (h : l.Balanced k) :
    List.Forall₂ l.Registers ((l.ledger k).calls (l.dealing k)) (l.dealing k).called ∧
      List.Forall₂ l.Registers (l.ledger (k + 1)).taken (l.after (k + 1)).pending := by
  have pending := (l.deals k).pending
  rw [ledger]
  cases hd : l.dealing k with
  | binds m handle =>
    rw [hd] at pending
    have same : (l.after (k + 1)).pending = (l.after k).pending := pending
    rw [same]
    exact ⟨.nil, h.taken⟩
  | takes m =>
    rw [hd] at pending
    have grown : (l.after (k + 1)).pending =
        (l.after k).world.registry.disposables.held m ++ (l.after k).pending := pending
    rw [grown]
    exact ⟨.nil, List.rel_append (h.bound m) h.taken⟩
  | calls m handle =>
    rw [hd] at pending
    have next : (m, handle) :: (l.after (k + 1)).pending = (l.after k).pending := pending
    have taken := h.taken
    rw [← next] at taken
    obtain ⟨j, rest, first, others, split⟩ := List.forall₂_cons_right_iff.mp taken
    rw [Ledger.next, Ledger.calls, split]
    exact ⟨.cons first .nil, others⟩
  | leaves =>
    rw [hd] at pending
    have same : (l.after (k + 1)).pending = (l.after k).pending := pending
    rw [same]
    exact ⟨.nil, h.taken⟩

end Balanced

theorem balanced (l : Life) (k : Nat) : l.Balanced k := by
  induction k with
  | zero => exact .initial l
  | succ k ih => exact ⟨ih.bound_succ, ih.taken_succ.2, fun _ _ _ => ih.once_succ⟩

/-- The registrations that are added to those that were called are of the handles that the history
tells to have been called since. -/
theorem exists_called_since (l : Life) (h : j ≤ k) : ∃ since released,
    (l.ledger k).called = since ++ (l.ledger j).called ∧ List.Forall₂ l.Registers since released ∧
      ∀ before, Event.Releases (l.after j).history before →
        Event.Releases (l.after k).history (released ++ before) := by
  induction k, h using Nat.le_induction with
  | base => exact ⟨[], [], rfl, .nil, fun _ h => h⟩
  | succ k _ ih =>
    obtain ⟨since, released, called, registered, record⟩ := ih
    refine ⟨(l.ledger k).calls (l.dealing k) ++ since, (l.dealing k).called ++ released, ?_,
      List.rel_append (l.balanced k).taken_succ.1 registered, fun before h => ?_⟩
    · rw [ledger, Ledger.called_next, called, List.append_assoc]
    · rw [List.append_assoc]
      exact (l.deals k).called _ (record before h)

theorem releases_start (l : Life) : Event.Releases l.start.history [] := by
  obtain ⟨opened, history, silent⟩ :=
    Session.exists_history_enter l.world .owner [] [] l.program
  rw [start, Session.start, history, List.append_nil]
  exact silent

theorem exists_called (l : Life) (k : Nat) : ∃ released,
    Event.Releases (l.after k).history released ∧
      List.Forall₂ l.Registers (l.ledger k).called released := by
  obtain ⟨since, released, called, registered, record⟩ := l.exists_called_since k.zero_le
  have all := record [] l.releases_start
  rw [List.append_nil] at all
  refine ⟨released, all, ?_⟩
  rw [called, ledger, List.append_nil]
  exact registered

/-- While no teardown is on the call stack, no handle has been taken that is still to be called. -/
theorem taken_of_idle (idle : (l.after k).agendas = []) : (l.ledger k).taken = [] := by
  have taken := (l.balanced k).taken
  rw [Session.pending, idle] at taken
  exact List.forall₂_nil_right_iff.mp taken

/-- Only what was registered before is bound, replaced, taken or called. -/
theorem Registers.lt_of_mem (own : l.Registers j (n, handle)) (h : j ∈ (l.ledger k).places n) :
    j < k := by
  have counted := (l.balanced k).once n handle j own
  have positive := List.count_pos_iff.mpr h
  split at counted
  · assumption
  · omega

theorem Replaces.lt (h : l.Replaces i j) : j < i := by
  obtain ⟨n, _, -, bound⟩ := h
  obtain ⟨handle, own, -⟩ := (l.balanced i).registers bound
  apply own.lt_of_mem
  rw [Ledger.places, bound]
  exact List.mem_cons_self

/-- When an operation is answered, all teardowns have ended that it has begun. -/
theorem agendas_of_answered {op : Operation} {reply : Reply}
    (hc : (l.after j).control = .perform op) (answered : (l.after k).control = .answered reply)
    (same : (l.after k).stack = (l.after j).stack) : (l.after k).agendas = (l.after j).agendas := by
  rw [Session.agendas, Session.agendas, Session.waiting, Session.waiting, answered, hc, same]
  rfl

/-- An operation is not answered before the teardowns have ended that it has begun. -/
theorem returns_of_busy {op : Operation} {reply : Reply} (hc : (l.after j).control = .perform op)
    (later : j < k) (answered : (l.after k).control = .answered reply)
    (same : (l.after k).stack = (l.after j).stack)
    (busy : ∀ i < k, j < i → (l.after i).stack.length = (l.after j).stack.length →
      (l.after i).agendas.length ≠ (l.after j).agendas.length) : l.Returns j k reply := by
  refine ⟨later, answered, same, fun i hi hk given answered same => ?_⟩
  have agendas := agendas_of_answered hc answered same
  exact busy i hk hi (congrArg List.length same) (congrArg List.length agendas)

/-- What can have become of a registered handle. -/
inductive Fate where
  | bound
  | replaced
  | released

/-- What has become of a registered handle before a point of the life. -/
def Meets (l : Life) (k j : Nat) (entry : Name × Handle) : Fate → Prop
  | .bound => (l.ledger k).bound[entry.1]? = some j ∧
      (l.after k).world.registry.disposables.handle? entry.1 = some entry.2 ∧
      j ∉ (l.ledger k).called
  | .replaced => (∃ i, j < i ∧ i < k ∧ l.Replaces i j) ∧ j ∉ (l.ledger k).called
  | .released => (l.ledger k).called.count j = 1

theorem Registers.exists_unique_fate {entry : Name × Handle} (own : l.Registers j entry)
    (before : j < k) (idle : (l.after k).agendas = []) : ∃! fate, l.Meets k j entry fate := by
  obtain ⟨n, handle⟩ := entry
  -- The registration is in one place, and no place is left but the three of the fates.
  have counted := (l.balanced k).once n handle j own
  rw [if_pos before, Ledger.places, taken_of_idle idle] at counted
  simp only [List.count_append, List.count_nil] at counted
  have replaced : 0 < (l.ledger k).replaced.count j ↔ ∃ i, j < i ∧ i < k ∧ l.Replaces i j := by
    rw [List.count_pos_iff, mem_replaced]
    constructor
    · rintro ⟨i, hi, h⟩
      exact ⟨i, h.lt, hi, h⟩
    · rintro ⟨i, -, hi, h⟩
      exact ⟨i, hi, h⟩
  have bound : 0 < (l.ledger k).bound[n]?.toList.count j ↔ (l.ledger k).bound[n]? = some j := by
    rw [List.count_pos_iff, Option.mem_toList]
  by_cases called : j ∈ (l.ledger k).called
  · have positive := List.count_pos_iff.mpr called
    refine ⟨.released, ?_, fun fate met => ?_⟩
    · show (l.ledger k).called.count j = 1
      omega
    · cases fate with
      | bound => exact absurd called met.2.2
      | replaced => exact absurd called met.2
      | released => rfl
  · have uncalled := List.count_eq_zero.mpr called
    have released : ¬ l.Meets k j (n, handle) .released := by
      intro met
      have once : (l.ledger k).called.count j = 1 := met
      omega
    by_cases stands : (l.ledger k).bound[n]? = some j
    · have positive := bound.mpr stands
      obtain ⟨_, same, held⟩ := (l.balanced k).registers stands
      obtain ⟨-, rfl⟩ := Prod.mk.inj (own.unique same)
      refine ⟨.bound, ⟨stands, held, called⟩, fun fate met => ?_⟩
      cases fate with
      | bound => rfl
      | replaced =>
        have also := replaced.mpr met.1
        omega
      | released => exact absurd met released
    · have unbound := mt bound.mp stands
      refine ⟨.replaced, ⟨replaced.mp (by omega), called⟩, fun fate met => ?_⟩
      cases fate with
      | bound => exact absurd met.1 stands
      | replaced => rfl
      | released => exact absurd met released

/-- A request to destroy is answered with nothing, whatever its callbacks throw. -/
theorem Returns.reply_of_destruction {q : Request} {reply : Reply} (h : l.Returns i k reply)
    (hc : (l.after i).control = .perform (.registry q)) (hq : q.isDestruction) :
    reply = .ok .nothing := by
  obtain ⟨agenda, tearing⟩ : ∃ agenda,
      ((l.after i).world.registry.request q).progress = .tearing agenda := by
    cases q with
    | destroy n => exact ⟨_, rfl⟩
    | destroyAll => exact ⟨_, rfl⟩
    | _ => cases hq
  have anything := h.of_tears hc tearing (p := fun _ _ => True) trivial
    (fun _ _ _ _ _ _ _ => trivial)
  exact anything.1

/-- Whenever no teardown is on the call stack, every registered handle is bound to its name, or was
replaced and not called, or was called exactly once, for its name; and nothing is ever thrown out of
a destruction. -/
theorem registrations_accounted (l : Life) {k : Nat} (idle : (l.after k).agendas = []) :
    (∀ j entry, j < k → l.Registers j entry → ∃! fate, l.Meets k j entry fate) ∧
    (∃ released, Event.Releases (l.after k).history released ∧
      List.Forall₂ l.Registers (l.ledger k).called released) ∧
    ∀ i m q reply, (l.after i).control = .perform (.registry q) → q.isDestruction →
      l.Returns i m reply → reply = .ok .nothing := by
  refine ⟨fun j entry before own => own.exists_unique_fate before idle, l.exists_called k, ?_⟩
  exact fun i m q reply hc hq returns => returns.reply_of_destruction hc hq

/-- A release callback gives its name another handle, destroys the name again and throws. -/
def rearming : Life :=
  plain
    (.perform (.registry (.disposable "a" (.callback "f"))) fun _ =>
      .perform (.registry (.disposable "a" (.callback "r"))) fun _ =>
      .perform (.registry (.destroy "a")) fun _ => .finish (.ok .nothing))
    (fun _ => .perform (.registry (.disposable "a" .idle)) fun _ =>
      .perform (.registry (.destroy "a")) fun _ => .finish (.error (.foreign 3)))
    ⟨rfl, fun _ => ⟨rfl, fun _ => ⟨rfl, fun _ => trivial⟩⟩⟩
    fun _ => ⟨rfl, fun _ => ⟨rfl, fun _ => trivial⟩⟩

theorem returns_rearming : rearming.Returns 4 22 (.ok .nothing) := by
  have starts : (rearming.after 4).control = .perform (.registry (.destroy "a")) := rfl
  refine returns_of_busy starts (by decide) rfl rfl ?_
  decide +kernel

/-- One handle has been replaced then, and two have been called, the second one while the callback
of the first one ran. -/
theorem accounted_rearming : (rearming.after 23).agendas = [] ∧
    ((∃! fate, rearming.Meets 23 0 ("a", .callback "f") fate) ∧
      rearming.Meets 23 0 ("a", .callback "f") .replaced) ∧
    ((∃! fate, rearming.Meets 23 2 ("a", .callback "r") fate) ∧
      rearming.Meets 23 2 ("a", .callback "r") .released) ∧
    ((∃! fate, rearming.Meets 23 8 ("a", .idle) fate) ∧
      rearming.Meets 23 8 ("a", .idle) .released) ∧
    rearming.Returns 4 22 (.ok .nothing) ∧
    ∀ reply, rearming.Returns 4 22 reply → reply = .ok .nothing := by
  have idle : (rearming.after 23).agendas = [] := rfl
  obtain ⟨fates, -, replies⟩ := rearming.registrations_accounted idle
  have replaced : rearming.Meets 23 0 ("a", .callback "f") .replaced :=
    ⟨⟨2, by decide, by decide, "a", .callback "r", rfl, rfl⟩, by decide +kernel⟩
  have called : (rearming.ledger 23).called.count 2 = 1 ∧
      (rearming.ledger 23).called.count 8 = 1 := by
    decide +kernel
  exact ⟨idle, ⟨fates 0 _ (by decide) ⟨rfl, by decide⟩, replaced⟩,
    ⟨fates 2 _ (by decide) ⟨rfl, by decide⟩, called.1⟩,
    ⟨fates 8 _ (by decide) ⟨rfl, by decide⟩, called.2⟩, returns_rearming, fun reply => replies 4 22 (.destroy "a") reply rfl rfl⟩

end Life

end Singletons
