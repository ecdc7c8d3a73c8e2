import Singletons.Proofs.Session.Execution
import Singletons.Proofs.Session.Trace
/-!
# Creation while all names are being destroyed

The destruction of all names refuses every creation from its beginning on, until it ends or another
one inside it ends: the end of an inner one lets creations through again while the outer one still
goes on.
-/

namespace Singletons

/-- The teardowns that an operation has to finish after the callback that it waits for. -/
def Waiting.agendas : Waiting → List Agenda
  | creating _ _ _ => []
  | promoting _ _ => []
  | releasing _ rest => [rest]

/-- The teardowns that an operation has to finish from here on. -/
def Progress.agendas (p : Progress) : List Agenda :=
  p.agenda?.toList ++ p.waiting.flatMap (·.agendas)

namespace Registry

/-- A request goes on with a teardown only if it asks for one. -/
theorem request_agendas (r : Registry) (q : Request) :
    (r.request q).registry.destroying = r.destroying ∧
        (∀ agenda ∈ (r.request q).progress.agendas, .finish ∉ agenda.items) ∨
      q = .destroyAll := by
  have answered (reply : Reply) : (Progress.answered reply).agendas = [] := rfl
  cases q with
  | register n object =>
    obtain ⟨_, _, _, h, _⟩ := r.register_eq n object
    exact .inl (by rw [request, h]; simp [answered])
  | lookup n early =>
    rcases r.lookup_eq n early with ⟨_, h⟩ | ⟨_, h⟩
    · exact .inl (by rw [request, h]; simp [answer, answered])
    · refine .inl (by rw [request, h]; simp [Progress.agendas, Progress.agenda?,
        Progress.waiting, Waiting.agendas])
  | stage n factory =>
    obtain ⟨_, _, _, h, _⟩ := r.stage_eq n factory
    exact .inl (by rw [request, h]; simp [answered])
  | getOrCreate n factory =>
    rcases r.getOrCreate_eq n factory with ⟨_, _, h⟩ | ⟨_, _, _, _, _, _, h⟩
    · exact .inl (by rw [request, h]; simp [answered])
    · exact .inl (by rw [request, h]; simp [Progress.agendas, Progress.agenda?,
        Progress.waiting, Waiting.agendas])
  | getOrCreateBare n factory =>
    rcases r.getOrCreate_eq n factory with ⟨_, _, h⟩ | ⟨_, _, _, _, _, _, h⟩
    · exact .inl (by rw [request, h]; simp [Advance.bare, Progress.bare, answered])
    · exact .inl (by rw [request, h]; simp [Advance.bare, Progress.bare, Progress.agendas,
        Progress.agenda?, Progress.waiting, Waiting.agendas])
  | suppress faults =>
    obtain ⟨_, h⟩ := r.foldl_suppress_eq faults
    exact .inl (by rw [request, h]; simp [answer, answered])
  | destroy n =>
    exact .inl (by simp [request, destroy, Progress.agendas, Progress.agenda?, Progress.waiting])
  | destroyAll => exact .inr rfl
  | _ => exact .inl (by simp [request, answer, answered])

/-- A step of a teardown ends the destruction of all names exactly where that comes last. -/
theorem teardown_agendas (r : Registry) (agenda : Agenda) :
    ((∃ rest, agenda.items = .finish :: rest) ∧ (r.teardown agenda).registry.destroying = false ∨
      (∀ rest, agenda.items ≠ .finish :: rest) ∧
        (r.teardown agenda).registry.destroying = r.destroying) ∧
    ∀ left ∈ (r.teardown agenda).progress.agendas, .finish ∈ left.items →
      .finish ∈ agenda.items := by
  obtain ⟨items, visited⟩ := agenda
  cases items with
  | nil => simp [teardown, answer, Progress.agendas, Progress.agenda?, Progress.waiting]
  | cons item rest =>
    cases item with
    | root n => simp [teardown, Progress.agendas, Progress.agenda?, Progress.waiting]
    | visit n =>
      by_cases seen : visited.contains n = true
      · simp [teardown, seen, Progress.agendas, Progress.agenda?, Progress.waiting]
      · simp [teardown, seen, withdraw, Progress.agendas, Progress.agenda?, Progress.waiting]
    | release n handle =>
      cases handle <;>
        simp [teardown, Progress.agendas, Progress.agenda?, Progress.waiting, Waiting.agendas]
    | inside n => simp [teardown, Progress.agendas, Progress.agenda?, Progress.waiting]
    | forget n => simp [teardown, Progress.agendas, Progress.agenda?, Progress.waiting]
    | finish => simp [teardown, Progress.agendas, Progress.agenda?, Progress.waiting]

/-- The end of a callback leaves to the operation what it had to finish anyway. -/
theorem resume_agendas (r : Registry) (ended : Except Thrown Returned) (w : Waiting) :
    (r.resume ended w).registry.destroying = r.destroying ∧
      (r.resume ended w).progress.agendas = w.agendas := by
  cases w with
  | creating n outermost bare =>
    obtain ⟨_, _, h⟩ := r.resume_creating_eq n outermost bare ended
    rw [h]
    exact ⟨rfl, rfl⟩
  | promoting n f =>
    obtain ⟨_, _, _, h, _⟩ := r.madeEarly_eq n f ended
    rw [resume, h]
    exact ⟨rfl, rfl⟩
  | releasing n rest =>
    obtain ⟨_, _, h⟩ := r.released_eq n rest ended
    rw [resume, h]
    exact ⟨rfl, rfl⟩

theorem request_destroying {r : Registry} {q : Request} {n : Name} {f : CallbackId}
    (hq : q.creation? = some (n, some f)) (unbound : r.cache.find? n = none)
    (tearing : r.destroying = true) :
    (r.request q).progress = .answered (.ok (.creation
        (.report .creationNotAllowed (some (Refusal.inDestruction.fault n))))) ∧
      (r.request q).registry = r := by
  have h : ∃ notes, r.getOrCreate n (some f) = r.refuse (Refusal.inDestruction.fault n) notes := by
    simp only [getOrCreate, unbound, tearing, if_true]
    exact ⟨_, rfl⟩
  obtain ⟨_, h⟩ := h
  cases q with
  | getOrCreate m factory =>
    obtain ⟨rfl, rfl⟩ := Prod.mk.inj (Option.some.inj hq)
    rw [request, h]
    exact ⟨rfl, rfl⟩
  | getOrCreateBare m factory =>
    obtain ⟨rfl, rfl⟩ := Prod.mk.inj (Option.some.inj hq)
    rw [request, h]
    exact ⟨rfl, rfl⟩
  | _ => simp [Request.creation?] at hq

theorem destroying_of_refused {r : Registry} {q : Request} {n : Name} {f : CallbackId}
    (hq : q.creation? = some (n, some f)) (unbound : r.cache.find? n = none)
    (refused : (r.request q).progress = .answered (.ok (.creation
      (.report .creationNotAllowed (some (Refusal.inDestruction.fault n)))))) :
    r.destroying = true := by
  refine Classical.byContradiction fun h => ?_
  have standing : r.destroying = false := Bool.eq_false_iff.mpr h
  cases allowed : (r.flags.mark n).1 with
  | true =>
    obtain ⟨_, calling⟩ := request_calling hq unbound standing allowed
    cases calling.symm.trans refused
  | false =>
    have underway := (request_underway hq unbound standing allowed).1
    have codes := Progress.answered.inj (underway.symm.trans refused)
    cases codes

end Registry

namespace Session

/-- The teardowns on the call stack, the innermost first. -/
def agendas (s : Session) : List Agenda :=
  s.control.agenda?.toList ++ s.waiting.flatMap (·.agendas)

/-- The destruction of all names is on the call stack. -/
def Clearing (s : Session) : Prop := ∃ agenda ∈ s.agendas, .finish ∈ agenda.items

def StartsClearing (s : Session) : Prop := s.control = .perform (.registry .destroyAll)

def EndsClearing (s : Session) : Prop :=
  ∃ agenda rest, s.control = .teardown agenda ∧ agenda.items = .finish :: rest

/-- The next step ends a destruction of all names inside another one. -/
def EndsInner (env : Environment) (s : Session) : Prop :=
  s.EndsClearing ∧ ∃ t, s.step env = some t ∧ t.Clearing

variable {env : Environment} {s t : Session}

theorem StartsClearing.isSome_step (h : s.StartsClearing) : (s.step env).isSome := by
  obtain ⟨w, control, stack, history⟩ := s
  obtain rfl : control = .perform (.registry .destroyAll) := h
  rfl

theorem agendas_of_moves {a : Advance} {rest : List Waiting}
    (hw : t.waiting = a.progress.waiting ++ rest)
    (ha : t.control.agenda? = a.progress.agenda?) :
    t.agendas = a.progress.agendas ++ rest.flatMap (·.agendas) := by
  rw [agendas, hw, ha, List.flatMap_append, Progress.agendas, List.append_assoc]

theorem StartsClearing.destroying_step (h : s.StartsClearing) (hs : s.step env = some t) :
    t.world.registry.destroying = true := by
  obtain ⟨w, control, stack, history⟩ := s
  obtain rfl : control = .perform (.registry .destroyAll) := h
  obtain rfl := Option.some.inj hs
  rw [registry_turn, World.perform, World.registry_advance]
  rfl

/-- What a step does that does not start the destruction of all names. -/
theorem Public.clearing_step (hp : s.Public) (hs : s.step env = some t)
    (other : ¬ s.StartsClearing) :
    (t.Clearing → s.Clearing) ∧
      (s.EndsClearing ∧ t.world.registry.destroying = false ∨
        ¬ s.EndsClearing ∧ t.world.registry.destroying = s.world.registry.destroying) := by
  obtain ⟨a, rest, move, hr, hw, ha⟩ := step_moves hs
  rw [hr, Clearing, Clearing, agendas_of_moves hw ha]
  have below : ∀ agenda ∈ s.waiting.flatMap (·.agendas), agenda ∈ s.agendas :=
    fun agenda h => List.mem_append_right _ h
  have going {c : Control} (hc : s.control = c) (h : ∀ agenda, c ≠ .teardown agenda) :
      ¬ s.EndsClearing := by
    rintro ⟨agenda, _, ht, -⟩
    exact h agenda (hc.symm.trans ht)
  cases move with
  | pass hc =>
    refine ⟨?_, .inr ⟨?_, rfl⟩⟩
    · rintro ⟨agenda, hm, last⟩
      exact ⟨agenda, below agenda hm, last⟩
    · rintro ⟨agenda, _, ht, -⟩
      simp [ht, Control.passes] at hc
  | @request q hc =>
    rcases s.world.registry.request_agendas q with ⟨same, none⟩ | rfl
    · refine ⟨?_, .inr ⟨going hc (fun _ h => by cases h), same⟩⟩
      rintro ⟨agenda, hm, last⟩
      rcases List.mem_append.mp hm with new | old
      · exact absurd last (none agenda new)
      · exact ⟨agenda, below agenda old, last⟩
    · exact absurd hc other
  | part hc => exact absurd (hp.operation _ hc) (by simp [Operation.isPublic])
  | @teardown agenda hc =>
    obtain ⟨ends, stays⟩ := s.world.registry.teardown_agendas agenda
    have innermost : agenda ∈ s.agendas := by simp [agendas, hc, Control.agenda?]
    refine ⟨?_, ?_⟩
    · rintro ⟨left, hm, last⟩
      rcases List.mem_append.mp hm with new | old
      · exact ⟨agenda, innermost, stays left new last⟩
      · exact ⟨left, below left old, last⟩
    · rcases ends with ⟨⟨rest, items⟩, ended⟩ | ⟨items, same⟩
      · exact .inl ⟨⟨agenda, rest, hc, items⟩, ended⟩
      · refine .inr ⟨?_, same⟩
        rintro ⟨agenda', rest, hc', h⟩
        obtain rfl := Control.teardown.inj (hc.symm.trans hc')
        exact items rest h
  | @resume id n w ended rest hc hrest =>
    obtain ⟨same, left⟩ := s.world.registry.resume_agendas ended w
    refine ⟨?_, .inr ⟨going hc (fun _ h => by cases h), same⟩⟩
    rintro ⟨agenda, hm, last⟩
    refine ⟨agenda, below agenda ?_, last⟩
    rw [hrest, List.flatMap_cons, ← left]
    exact hm

end Session

namespace Life

/-- A destruction of all names has ended inside another one, and none has started since. -/
def Interrupted (l : Life) (k : Nat) : Prop :=
  l.Raised (Session.EndsInner l.environment) Session.StartsClearing k

theorem destroying_iff_not_interrupted (l : Life) {k : Nat} (h : (l.after k).Clearing) :
    (l.after k).world.registry.destroying = true ↔ ¬ l.Interrupted k := by
  induction k with
  | zero =>
    obtain ⟨agenda, hm, -⟩ := h
    have none : l.start.control.agenda? = none := Session.agenda?_enter _ _ _ _ _
    rw [after, Session.agendas, waiting_start, none] at hm
    cases hm
  | succ k ih =>
    cases hs : (l.after k).step l.environment with
    | none =>
      rw [after_halted hs] at h ⊢
      rw [Interrupted, raised_halted hs, ih h, Interrupted]
      rintro s (⟨-, t, step, -⟩ | starts)
      · simp [step]
      · exact starts.isSome_step
    | some t =>
      rw [after_succ hs] at h ⊢
      rw [Interrupted, raised_succ]
      by_cases starts : (l.after k).StartsClearing
      · refine iff_of_true (starts.destroying_step hs) ?_
        rintro (⟨⟨agenda, _, hc, -⟩, -⟩ | ⟨-, other⟩)
        · cases starts.symm.trans hc
        · exact other starts
      · obtain ⟨before, ends⟩ := (l.reaches_after k).isPublic.clearing_step hs starts
        rcases ends with ⟨ends, off⟩ | ⟨goes, same⟩
        · refine iff_of_false (by simp [off]) ?_
          exact not_not_intro (.inl ⟨ends, t, hs, h⟩)
        · have inner : ¬ (l.after k).EndsInner l.environment := fun inner => goes inner.1
          rw [same, ih (before h), Interrupted]
          simp [inner, starts]

/-- While the destruction of all names is on the call stack, the registry is in destruction and
refuses to create a name that is not bound, without a call and without a change, exactly as long as
no other destruction of all names has ended inside it since one has started. -/
theorem creation_not_allowed_iff (l : Life) {k : Nat} (h : (l.after k).Clearing) :
    ((l.after k).world.registry.destroying = true ↔ ¬ l.Interrupted k) ∧
    ∀ n f, (l.after k).control.creation? = some (n, some f) →
      (l.after k).world.registry.cache.find? n = none →
      ((∃ t, (l.after k).step l.environment = some t ∧
          t.control = .answered (.ok (.creation
            (.report .creationNotAllowed (some (Refusal.inDestruction.fault n))))) ∧
          t.stack = (l.after k).stack ∧ t.world.registry = (l.after k).world.registry ∧
          t.world.calls = (l.after k).world.calls) ↔ ¬ l.Interrupted k) := by
  have destroying := l.destroying_iff_not_interrupted h
  refine ⟨destroying, fun n f creates unbound => ?_⟩
  rw [← destroying]
  obtain ⟨q, hc, hq⟩ := Control.exists_request creates
  constructor
  · rintro ⟨t, hs, refused, -⟩
    exact Registry.destroying_of_refused hq unbound (Session.progress_of_answered hs hc refused)
  · intro tearing
    obtain ⟨refused, same⟩ := Registry.request_destroying hq unbound tearing
    obtain ⟨t, hs, control, stack, registry, calls⟩ :=
      Session.step_request_answered l.environment hc refused
    exact ⟨t, hs, control, stack, registry.trans same, calls⟩

/-- A release callback that destroys all names again and then asks for a creation. -/
theorem creation_during_destruction : ∃ (l : Life) (k : Nat), (l.after k).Clearing ∧
    (l.after k).control.creation? = some ("b", some "f") ∧
    (l.after k).world.registry.cache.find? "b" = none ∧
    (l.after k).world.registry.destroying = false ∧ l.Interrupted k ∧
    "b" ∈ (l.after (k + 1)).creating := by
  let all : Operation := .registry .destroyAll
  let l := plain
    (.perform (.registry (.disposable "a" (.callback "r"))) fun _ => .perform all fun _ =>
      .finish (.ok .nothing))
    (fun _ => .perform all fun _ => .perform (.registry (.getOrCreate "b" (some "f"))) fun _ =>
      .finish (.ok .nothing))
    ⟨rfl, fun _ => ⟨rfl, fun _ => trivial⟩⟩ fun _ => ⟨rfl, fun _ => ⟨rfl, fun _ => trivial⟩⟩
  have creates : (l.after 10).control.creation? = some ("b", some "f") := by decide +kernel
  have unbound : (l.after 10).world.registry.cache.find? "b" = none := by decide +kernel
  have off : (l.after 10).world.registry.destroying = false := by decide +kernel
  have clearing : (l.after 10).Clearing := by
    show ∃ agenda ∈ (l.after 10).agendas, Agenda.Item.finish ∈ agenda.items
    decide +kernel
  refine ⟨l, 10, clearing, creates, unbound, off, Classical.byContradiction fun h => ?_, ?_⟩
  · have on := (l.creation_not_allowed_iff clearing).1.mpr h
    rw [off] at on
    cases on
  · decide +kernel

end Life

end Singletons
