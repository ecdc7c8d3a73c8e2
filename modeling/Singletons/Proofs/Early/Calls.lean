import Singletons.Proofs.Cache.Entries
import Singletons.Proofs.Session.Nesting
/-!
# Calls of early factories

A look-up takes the factory that is staged for the name out of the cache, calls it, and goes on when
it has returned. Until then the name is left without any entry, unless something is set for it.
-/

namespace Singletons

theorem Agenda.access_cases (a : Agenda) :
    a.access = .leaves ∨ a.access = .clear ∨ ∃ n, a.access = .remove n := by
  obtain ⟨items, visited⟩ := a
  cases items with
  | nil => exact .inl rfl
  | cons item rest =>
    cases item with
    | visit n =>
      simp only [access]
      split
      · exact .inl rfl
      · exact .inr (.inr ⟨n, rfl⟩)
    | finish => exact .inr (.inl rfl)
    | _ => exact .inl rfl

theorem Waiting.access_cases (w : Waiting) (ended : Except Thrown Returned) :
    w.access ended = .leaves ∨ (∃ n o, w.access ended = .bind n o) ∨
      ∃ n f returned, w = .promoting n f ∧ ended = .ok returned ∧
        w.access ended = .settle n f returned.asObject := by
  cases w with
  | creating n outermost bare =>
    rw [access]
    cases made? ended with
    | none => exact .inl rfl
    | some o => exact .inr (.inl ⟨n, o, rfl⟩)
  | promoting n f =>
    cases ended with
    | error thrown => exact .inl rfl
    | ok returned => exact .inr (.inr ⟨n, f, returned, rfl, rfl, rfl⟩)
  | releasing n rest => exact .inl rfl

namespace Registry

variable {r : Registry} {n : Name} {f id : CallbackId}

/-- Of all requests only a look-up calls an early factory, the one that is staged for the name. -/
theorem lookup_of_promoting {q : Request}
    (h : (r.request q).progress = .calling id (.promoting n f)) :
    q = .lookup n true ∧ r.cache.lookup n true (r.flags.isInCreation n) = .promote f := by
  cases q with
  | register m object =>
    obtain ⟨_, _, _, same, -⟩ := r.register_eq m object
    rw [request, same] at h
    cases h
  | lookup m early =>
    rw [request, lookup] at h
    split at h
    · cases h
    · rename_i g promotes
      cases h
      obtain ⟨-, rfl, -⟩ := Cache.lookup_eq_promote.mp promotes
      exact ⟨rfl, promotes⟩
  | stage m factory =>
    obtain ⟨_, _, _, same, -⟩ := r.stage_eq m factory
    rw [request, same] at h
    cases h
  | getOrCreate m factory =>
    rw [request] at h
    rcases r.getOrCreate_eq m factory with ⟨_, _, same⟩ | ⟨_, _, _, _, _, _, same⟩
    · rw [same] at h
      cases h
    · rw [same] at h
      cases h
  | getOrCreateBare m factory =>
    rw [request] at h
    rcases r.getOrCreate_eq m factory with ⟨_, _, same⟩ | ⟨_, _, _, _, _, _, same⟩
    · rw [same] at h
      cases h
    · rw [same] at h
      cases h
  | _ => cases h

theorem not_promoting_teardown (r : Registry) (agenda : Agenda) :
    (r.teardown agenda).progress ≠ .calling id (.promoting n f) := by
  obtain ⟨items, visited⟩ := agenda
  intro h
  cases items with
  | nil => cases h
  | cons item rest =>
    cases item with
    | visit m =>
      rw [teardown] at h
      dsimp only at h
      split at h <;> cases h
    | release m handle => cases handle <;> cases h
    | _ => cases h

/-- The look-up is answered however the factory ends. -/
theorem exists_answered_promoting (r : Registry) (n : Name) (f : CallbackId)
    (ended : Except Thrown Returned) :
    ∃ reply, (r.resume ended (.promoting n f)).progress = .answered reply := by
  cases ended with
  | error thrown => exact ⟨_, rfl⟩
  | ok returned => exact ⟨_, rfl⟩

end Registry

namespace Session

variable {s : Session} {n : Name} {f : CallbackId}

/-- The next step looks for a name and calls the factory that is staged for it. -/
def Promotes (s : Session) (n : Name) (f : CallbackId) : Prop :=
  s.control = .perform (.registry (.lookup n true)) ∧
    s.world.registry.cache.lookup n true (s.world.registry.flags.isInCreation n) = .promote f

theorem Promotes.calling (h : s.Promotes n f) :
    (s.world.registry.request (.lookup n true)).progress = .calling f (.promoting n f) := by
  rw [Registry.request, Registry.lookup, h.2]

theorem Promotes.staged (h : s.Promotes n f) :
    s.world.registry.cache.provisional[n]? = some (.staged f) :=
  (Cache.lookup_eq_promote.mp h.2).2.2.2

theorem going_of_perform {op : Operation} (hc : s.control = .perform op) :
    ∀ cause result, s.control ≠ .ended cause result := by
  intro cause result ended
  cases hc.symm.trans ended

theorem Promotes.going (h : s.Promotes n f) : ∀ cause result, s.control ≠ .ended cause result :=
  going_of_perform h.1

/-- Nothing but such a look-up has to wait for an early factory. -/
theorem Public.promotes_of_calls (hp : s.Public) (h : s.Calls (.promoting n f)) :
    s.Promotes n f := by
  obtain ⟨a, rest, id, move, calling⟩ := h
  cases move with
  | pass hc => cases calling
  | request hc =>
    obtain ⟨rfl, promotes⟩ := Registry.lookup_of_promoting calling
    exact ⟨hc, promotes⟩
  | part hc => exact absurd (hp.operation _ hc) (by simp [Operation.isPublic])
  | teardown hc => exact absurd calling (Registry.not_promoting_teardown _ _)
  | resume hc _ =>
    have silent := Registry.waiting_resume s.world.registry
    cases (congrArg Progress.waiting calling).symm.trans (silent _ _)

theorem access_cases (s : Session) : s.access = .leaves ∨
    (∃ q, s.control = .perform (.registry q) ∧ s.access = q.access s.world.registry.flags) ∨
    (∃ agenda, s.control = .teardown agenda ∧ s.access = agenda.access) ∨
    ∃ id m w ended, s.control = .ended (.call id m w) ended ∧ s.access = w.access ended := by
  rw [access]
  cases s.control with
  | perform op =>
    cases op with
    | registry q => exact .inr (.inl ⟨q, rfl, rfl⟩)
    | _ => exact .inl rfl
  | teardown agenda => exact .inr (.inr (.inl ⟨agenda, rfl, rfl⟩))
  | ended cause result =>
    cases cause with
    | call id m w => exact .inr (.inr (.inr ⟨id, m, w, result, rfl, rfl⟩))
    | _ => exact .inl rfl
  | answered reply => exact .inl rfl

theorem access_of_request {q : Request} (hc : s.control = .perform (.registry q)) :
    s.access = q.access s.world.registry.flags := by
  rw [access, hc]

/-- Only a request looks into the cache or puts anything in from outside. -/
theorem request_of_access (h : s.access.isAsked) : ∃ q, s.control = .perform (.registry q) ∧
    s.access = q.access s.world.registry.flags := by
  rcases s.access_cases with same | request | ⟨agenda, -, same⟩ | ⟨id, m, w, ended, -, same⟩
  · rw [same] at h
    cases h
  · exact request
  · rw [same] at h
    rcases agenda.access_cases with leaves | clear | ⟨m, removes⟩
    · rw [leaves] at h
      cases h
    · rw [clear] at h
      cases h
    · rw [removes] at h
      cases h
  · rw [same] at h
    rcases w.access_cases ended with leaves | ⟨m, o, binds⟩ | ⟨m, f, returned, -, -, settles⟩
    · rw [leaves] at h
      cases h
    · rw [binds] at h
      cases h
    · rw [settles] at h
      cases h

theorem control_of_consult {early inCreation : Bool} (h : s.access = .consult n early inCreation) :
    s.control = .perform (.registry (.lookup n early)) ∧
      s.world.registry.flags.isInCreation n = inCreation := by
  obtain ⟨q, control, asks⟩ := request_of_access (by rw [h]; rfl)
  rw [h] at asks
  cases q with
  | lookup m early' =>
    obtain ⟨rfl, rfl, rfl⟩ := Cache.Access.consult.inj asks
    exact ⟨control, rfl⟩
  | _ => cases asks

/-- What a look-up settles has come from a factory that has just returned. -/
theorem ended_of_access {made : Option Object} (h : s.access = .settle n f made) :
    ∃ id m returned, s.control = .ended (.call id m (.promoting n f)) (.ok returned) ∧
      returned.asObject = made := by
  rcases s.access_cases with same | ⟨q, -, same⟩ | ⟨agenda, -, same⟩ |
    ⟨id, m, w, ended, control, same⟩
  · cases same.symm.trans h
  · have asks := same.symm.trans h
    cases q <;> cases asks
  · rcases agenda.access_cases with leaves | clear | ⟨m, removes⟩
    · cases leaves.symm.trans (same.symm.trans h)
    · cases clear.symm.trans (same.symm.trans h)
    · cases removes.symm.trans (same.symm.trans h)
  · rcases w.access_cases ended with leaves | ⟨m, o, binds⟩ | ⟨m, f, returned, rfl, rfl, settles⟩
    · cases leaves.symm.trans (same.symm.trans h)
    · cases binds.symm.trans (same.symm.trans h)
    · cases settles.symm.trans (same.symm.trans h)
      exact ⟨id, _, returned, control, rfl⟩

theorem access_of_ended {id : CallbackId} {m : Nat} {returned : Returned}
    (hc : s.control = .ended (.call id m (.promoting n f)) (.ok returned)) :
    s.access = .settle n f returned.asObject := by
  rw [access, hc]
  rfl

theorem access_of_thrown {f id : CallbackId} {m : Nat} {thrown : Thrown}
    (hc : s.control = .ended (.call id m (.promoting n f)) (.error thrown)) :
    s.access = .leaves := by
  rw [access, hc]
  rfl

theorem promoting_iff :
    s.world.registry.cache.Promoting n s.access ↔ ∃ f, s.Promotes n f := by
  constructor
  · rintro ⟨f, early, inCreation, consults, promotes⟩
    obtain ⟨control, rfl⟩ := control_of_consult consults
    obtain ⟨-, rfl, -⟩ := Cache.lookup_eq_promote.mp promotes
    exact ⟨f, control, promotes⟩
  · rintro ⟨f, control, promotes⟩
    refine ⟨f, true, _, ?_, promotes⟩
    rw [access, control]
    rfl

theorem promotes_of_consult {f : CallbackId} (h : s.access = .consult n true true)
    (unbound : s.object? n = none)
    (staged : s.world.registry.cache.provisional[n]? = some (.staged f)) : s.Promotes n f := by
  obtain ⟨control, creating⟩ := control_of_consult h
  exact ⟨control, Cache.lookup_eq_promote.mpr ⟨unbound, rfl, creating, staged⟩⟩

end Session

namespace Life

variable {l : Life} {i j k : Nat} {n : Name} {f : CallbackId}

theorem sound_cache (l : Life) (k : Nat) : (l.after k).world.registry.cache.Sound :=
  (l.mirrors_tiers k).sound (l.sound_tiers k)

/-- An early factory that ends was called by a look-up, which has waited for it ever since. -/
theorem exists_promotes {id : CallbackId} {m : Nat} {ended : Except Thrown Returned}
    (hc : (l.after i).control = .ended (.call id m (.promoting n f)) ended) :
    ∃ j < i, (l.after j).Promotes n f ∧ l.Ends j i (.promoting n f) ended := by
  obtain ⟨j, hj, calls, ends⟩ := exists_calls_of_ended hc
  exact ⟨j, hj, (l.reaches_after j).isPublic.promotes_of_calls calls, ends⟩

theorem exists_promotes_of_settles (h : (l.access i).settles n) :
    ∃ j < i, ∃ f returned, (l.after j).Promotes n f ∧
      l.Ends j i (.promoting n f) (.ok returned) := by
  obtain ⟨f, made, settles⟩ := Cache.Access.exists_of_settles h
  obtain ⟨id, m, returned, control, -⟩ := Session.ended_of_access settles
  obtain ⟨j, hj, promotes, ends⟩ := exists_promotes control
  exact ⟨j, hj, f, returned, promotes, ends⟩

theorem Ends.access {returned : Returned} (h : l.Ends j i (.promoting n f) (.ok returned)) :
    l.access i = .settle n f returned.asObject := by
  obtain ⟨id, m, control⟩ := h.control
  exact Session.access_of_ended control

/-- An early factory that has returned is settled by the look-up, which is answered then. -/
theorem Ends.settles {returned : Returned} (h : l.Ends j i (.promoting n f) (.ok returned)) :
    ∃ settled, (l.after i).world.registry.cache.Settles n f returned.asObject settled ∧
      (l.after (i + 1)).world.registry.cache = settled.cache ∧
      l.Returns j (i + 1) (.ok (.object settled.object)) := by
  refine ⟨_, Cache.settles _ n f returned.asObject, ?_, h.returns rfl⟩
  rw [cache_succ, h.access]
  rfl

theorem Ends.cache_of_error {thrown : Thrown}
    (h : l.Ends j i (.promoting n f) (.error thrown)) :
    (l.after (i + 1)).world.registry.cache = (l.after i).world.registry.cache := by
  obtain ⟨id, m, control⟩ := h.control
  rw [cache_succ, show l.access i = .leaves from Session.access_of_thrown control]
  rfl

theorem bare_succ (l : Life) (n : Name) (k : Nat) :
    (l.after (k + 1)).world.registry.cache.Bare n ↔ (∃ f, (l.after k).Promotes n f) ∨
      ((l.after k).world.registry.cache.Bare n ∧
        ¬ ((l.access k).sets n ∨ (l.access k).settles n)) := by
  rw [cache_succ, (l.sound_cache k).bare_access, access, Session.promoting_iff]

/-- A name is bare from the call of a factory for it until something is set for it or a factory for
it has returned. -/
theorem bare_iff_raised (l : Life) (n : Name) (k : Nat) :
    (l.after k).world.registry.cache.Bare n ↔ l.Raised (fun s => ∃ f, s.Promotes n f)
      (fun s => s.access.sets n ∨ s.access.settles n) k := by
  induction k with
  | zero =>
    refine iff_of_false (fun bare => ?_) not_raised_zero
    have registered := bare.1
    rw [after, registry_start] at registered
    cases registered
  | succ k ih =>
    rw [bare_succ, raised_succ, ih]
    rfl

/-- While the factory runs, a name stays bare for which it sets nothing: there is no other factory
of the name to be called, and those that were called before cannot return yet. -/
theorem bare_while {ended : Except Thrown Returned} (promotes : (l.after j).Promotes n f)
    (ends : l.Ends j i (.promoting n f) ended)
    (unset : ∀ m, j < m → m < i → ¬ (l.access m).sets n) :
    ∀ m, j < m → m ≤ i → (l.after m).world.registry.cache.Bare n := by
  intro m
  induction m using Nat.strong_induction_on with
  | _ m ih =>
    intro begun le
    obtain ⟨m, rfl⟩ := Nat.exists_eq_succ_of_ne_zero (Nat.ne_zero_of_lt begun)
    rw [Nat.succ_eq_add_one, bare_succ]
    rcases Nat.eq_or_lt_of_le (Nat.le_of_lt_succ begun) with rfl | running
    · exact .inl ⟨f, promotes⟩
    · have bare := ih m m.lt_succ_self running (Nat.le_of_succ_le le)
      refine .inr ⟨bare, not_or.mpr ⟨unset m running le, fun settles => ?_⟩⟩
      obtain ⟨j', hj', g, returned, other, returns⟩ := exists_promotes_of_settles settles
      -- The factory that returns here was called before this one, is this one, or was called since.
      rcases Nat.lt_trichotomy j' j with earlier | rfl | later
      · have last := returns.nested ends earlier running promotes.going
        exact absurd last (Nat.not_lt.mpr (Nat.le_of_succ_le le))
      · exact absurd (ends.end_unique returns) (Nat.ne_of_gt le)
      · have gone := ih j' (Nat.lt_succ_of_lt hj') later (Nat.le_trans (Nat.le_of_lt hj')
          (Nat.le_of_succ_le le))
        cases (gone.lookup true _).symm.trans other.2

end Life

end Singletons
