import Singletons.Proofs.Early.Calls
/-!
# Early factories and their registrations

A factory that is registered for a name is staged until it is called, and again if it has returned
nothing and nothing else has been registered for the name. So each call of an early factory comes
from one registration, and of one registration no call begins before the last one has returned, and
none after it has returned an object.
-/

namespace Singletons

namespace Cache

variable {c : Cache} {n : Name}

/-- What a look-up answers that has called a factory is bound, or kept as the early reference. -/
theorem Settles.early {factory : CallbackId} {made : Option Object} {settled : Settled} {o : Object}
    (h : c.Settles n factory made settled) (answer : settled.object = some o)
    (unbound : settled.cache.find? n = none) (known : n ∈ settled.cache.registered) :
    settled.cache.provisional[n]? = some (.early o) := by
  cases h with
  | found there =>
    obtain rfl := Option.some.inj answer
    rcases of_reference? there with bound | early
    · cases unbound.symm.trans bound
    · exact early
  | promoted _ _ =>
    obtain rfl := Option.some.inj answer
    rw [provisional_provide, if_pos rfl]
  | passed _ unknown => exact absurd known unknown
  | _ => cases answer

/-- A factory that has returned nothing is put back for a bare name. -/
theorem Settles.staged {factory : CallbackId} {settled : Settled}
    (h : c.Settles n factory none settled) (bare : c.Bare n) :
    settled.cache.provisional[n]? = some (.staged factory) := by
  cases h with
  | found there => exact absurd (hasEntry_of_reference? there) bare.2
  | kept _ staged => exact absurd (.inr (by simp [staged])) bare.2
  | back _ _ => rw [provisional_provide, if_pos rfl]
  | gone _ unknown => exact absurd bare.1 unknown

theorem Sound.lookup_of_early (sound : c.Sound) {o : Object}
    (early : c.provisional[n]? = some (.early o)) : c.lookup n true true = .object (some o) := by
  rw [lookup, sound.find?_of_provisional early, early]
  rfl

end Cache

namespace Session

variable {s : Session} {n : Name} {f : CallbackId}

/-- The next step registers an early factory for a name that is not bound. -/
def Registers (s : Session) (n : Name) (f : CallbackId) : Prop :=
  s.control = .perform (.registry (.stage n (some f))) ∧ s.object? n = none

theorem Registers.access (h : s.Registers n f) : s.access = .stage n (some f) := by
  rw [Session.access, h.1]
  rfl

theorem Registers.sets (h : s.Registers n f) : s.access.sets n := by
  rw [h.access]
  simp [Cache.Access.sets]

theorem registers_of_access (h : s.access = .stage n (some f)) (unbound : s.object? n = none) :
    s.Registers n f := by
  obtain ⟨q, control, asks⟩ := request_of_access (by rw [h]; rfl)
  rw [h] at asks
  cases q with
  | stage m factory =>
    obtain ⟨rfl, rfl⟩ := Cache.Access.stage.inj asks
    exact ⟨control, unbound⟩
  | _ => cases asks

end Session

namespace Life

variable {l : Life} {i j k p : Nat} {n : Name} {f : CallbackId}

/-- At a point the factory is staged that a step has registered: not called since then, or put back
after each call. -/
inductive StagedBy (l : Life) (n : Name) (f : CallbackId) (p : Nat) : Nat → Prop where
  | registered (h : (l.after p).Registers n f) : StagedBy l n f p (p + 1)
  | stays {k : Nat} (h : StagedBy l n f p k) (unset : ¬ (l.access k).sets n)
    (staged : (l.after (k + 1)).world.registry.cache.provisional[n]? = some (.staged f)) :
    StagedBy l n f p (k + 1)
  | back {j i : Nat} {returned : Returned} (h : StagedBy l n f p j)
    (promotes : (l.after j).Promotes n f) (ends : l.Ends j i (.promoting n f) (.ok returned))
    (nothing : returned.asObject = none) (bare : (l.after i).world.registry.cache.Bare n) :
    StagedBy l n f p (i + 1)

namespace StagedBy

theorem lt (h : l.StagedBy n f p k) : p < k := by
  induction h with
  | registered _ => exact p.lt_succ_self
  | stays _ _ _ ih => exact Nat.lt_succ_of_lt ih
  | back _ _ ends _ _ ih => exact Nat.lt_succ_of_lt (Nat.lt_trans ih ends.later)

theorem registers (h : l.StagedBy n f p k) : (l.after p).Registers n f := by
  induction h with
  | registered h => exact h
  | stays _ _ _ ih => exact ih
  | back _ _ _ _ _ ih => exact ih

theorem staged (h : l.StagedBy n f p k) :
    (l.after k).world.registry.cache.provisional[n]? = some (.staged f) := by
  cases h with
  | registered h =>
    rw [cache_succ, show l.access p = _ from h.access, Cache.access]
    have unbound : (l.after p).world.registry.cache.find? n = none := h.2
    simp only [unbound, Option.isSome_none, Bool.false_eq_true, if_false]
    rw [Cache.provisional_stage, if_pos rfl]
  | stays _ _ staged => exact staged
  | back _ _ ends nothing bare =>
    obtain ⟨settled, settles, cache, -⟩ := ends.settles
    rw [nothing] at settles
    rw [cache]
    exact settles.staged bare

/-- What is staged at a point has been staged by one registration alone. -/
theorem unique {p' : Nat} (h : l.StagedBy n f p k) (h' : l.StagedBy n f p' k) : p = p' := by
  -- What a step registers is not kept from before, and what is put back was not there.
  induction h generalizing p' with
  | registered hp =>
    cases h' with
    | registered _ => rfl
    | stays _ unset _ => exact absurd hp.sets unset
    | back _ _ ends _ _ =>
      obtain ⟨id, m, control⟩ := ends.control
      exact absurd control (Session.going_of_perform hp.1 _ _)
  | stays h unset _ ih =>
    cases h' with
    | registered hp => exact absurd hp.sets unset
    | stays h' _ _ => exact ih h'
    | back _ _ _ _ bare => exact absurd bare (Cache.not_bare_of_provisional h.staged)
  | back h promotes ends _ bare ih =>
    cases h' with
    | registered hp =>
      obtain ⟨id, m, control⟩ := ends.control
      exact absurd control (Session.going_of_perform hp.1 _ _)
    | stays h' _ _ => exact absurd bare (Cache.not_bare_of_provisional h'.staged)
    | back h' promotes' ends' _ _ =>
      obtain rfl := ends.begin_unique ends' promotes.going promotes'.going
      exact ih h'

/-- A call of the factory that a registration has staged is over, and has returned nothing, when
what the registration has staged is there again. -/
theorem once (h : l.StagedBy n f p k) (first : l.StagedBy n f p j)
    (promotes : (l.after j).Promotes n f) (later : j < k) :
    ∃ i < k, ∃ returned, l.Ends j i (.promoting n f) (.ok returned) ∧
      returned.asObject = none := by
  induction k using Nat.strong_induction_on generalizing j with
  | _ k ih =>
    cases h with
    | registered _ => exact absurd first.lt (Nat.not_lt.mpr (Nat.le_of_lt_succ later))
    | @stays k h _ staged =>
      rcases Nat.lt_succ_iff_lt_or_eq.mp later with earlier | rfl
      · obtain ⟨i, hi, ended⟩ := ih k k.lt_succ_self h first promotes earlier
        exact ⟨i, Nat.lt_succ_of_lt hi, ended⟩
      · have bare := (l.bare_succ n j).mpr (.inl ⟨f, promotes⟩)
        exact absurd bare (Cache.not_bare_of_provisional staged)
    | @back j' i returned h promotes' ends nothing _ =>
      rcases Nat.lt_trichotomy j j' with earlier | rfl | between
      · have before : j' < i + 1 := Nat.lt_succ_of_lt ends.later
        obtain ⟨i', hi', ended⟩ := ih j' before h first promotes earlier
        exact ⟨i', Nat.lt_trans hi' before, ended⟩
      · exact ⟨i, i.lt_succ_self, returned, ends, nothing⟩
      · -- The call at `j'` is over before `j`, so it does not end at `i`.
        obtain ⟨i', hi', _, ends', -⟩ := ih j later first h promotes' between
        obtain rfl := ends.end_unique ends'
        exact absurd hi' (Nat.not_lt.mpr (Nat.le_of_lt_succ later))

end StagedBy

theorem exists_stagedBy
    (staged : (l.after k).world.registry.cache.provisional[n]? = some (.staged f)) :
    ∃ p, l.StagedBy n f p k := by
  induction k using Nat.strong_induction_on with
  | _ k ih =>
    cases k with
    | zero =>
      rw [after, registry_start] at staged
      simp [Registry.ofConfig] at staged
    | succ k =>
      have access := staged
      rw [cache_succ] at access
      rcases (l.sound_cache k).staged_access access with
        ⟨stages, unbound⟩ | ⟨before, unset⟩ | ⟨settles, bare⟩
      · exact ⟨k, .registered (Session.registers_of_access stages unbound)⟩
      · obtain ⟨p, h⟩ := ih k k.lt_succ_self before
        exact ⟨p, .stays h unset staged⟩
      · obtain ⟨id, m, returned, control, made⟩ := Session.ended_of_access settles
        obtain ⟨j, hj, promotes, ends⟩ := exists_promotes control
        obtain ⟨p, h⟩ := ih j (Nat.lt_succ_of_lt hj) promotes.staged
        exact ⟨p, .back h promotes ends made bare⟩

/-- A look-up that answers an object without a binding leaves it as the early reference. -/
theorem Returns.early {v : Object} (h : l.Returns j k (.ok (.object (some v))))
    (hc : (l.after j).control = .perform (.registry (.lookup n true)))
    (unbound : (l.after k).object? n = none)
    (known : n ∈ (l.after k).world.registry.cache.registered) :
    (l.after k).world.registry.cache.provisional[n]? = some (.early v) := by
  have consults : l.access j =
      .consult n true ((l.after j).world.registry.flags.isInCreation n) := by
    rw [access, Session.access_of_request hc]
    rfl
  cases found : (l.after j).world.registry.cache.lookup n true
      ((l.after j).world.registry.flags.isInCreation n) with
  | object o =>
    have answered : ((l.after j).world.registry.request (.lookup n true)).progress =
        .answered (.ok (.object o)) := by
      rw [Registry.request, Registry.lookup, found]
      rfl
    obtain ⟨rfl, same⟩ := h.of_answered hc answered
    cases same
    have kept : (l.after (j + 1)).world.registry.cache = (l.after j).world.registry.cache := by
      rw [cache_succ, consults, Cache.access, found]
    rw [Session.object?, kept] at unbound
    rw [kept]
    rcases Cache.of_lookup found with bound | early
    · cases unbound.symm.trans bound
    · exact early
  | promote f =>
    have promotes : (l.after j).Promotes n f := ⟨hc, found⟩
    obtain ⟨i, ended, rfl, ends, answered⟩ := h.of_calls hc promotes.calling
      fun r ended => r.exists_answered_promoting n f ended
    cases ended with
    | error thrown => cases answered
    | ok returned =>
      obtain ⟨settled, settles, cache, returns⟩ := ends.settles
      have answer := Control.answered.inj (returns.control.symm.trans h.control)
      rw [Session.object?, cache] at unbound
      rw [cache] at known ⊢
      exact settles.early (Answer.object.inj (Except.ok.inj answer)) unbound known

theorem early_after {o : Object} (le : k ≤ j)
    (early : (l.after k).world.registry.cache.provisional[n]? = some (.early o))
    (unset : ∀ m, k ≤ m → m < j → ¬ (l.access m).sets n) :
    (l.after j).world.registry.cache.provisional[n]? = some (.early o) := by
  induction j, le using Nat.le_induction with
  | base => exact early
  | succ j le ih =>
    have still := ih fun m hm lt => unset m hm (Nat.lt_succ_of_lt lt)
    rw [cache_succ]
    exact Cache.early_access still (unset j le j.lt_succ_self)

/-- An early reference answers every look-up for a name in creation, and nothing is called. -/
theorem returns_early {v : Object}
    (control : (l.after k).control = .perform (.registry (.lookup n true)))
    (creating : (l.after k).world.registry.flags.isInCreation n = true)
    (early : (l.after k).world.registry.cache.provisional[n]? = some (.early v)) :
    l.Returns k (k + 1) (.ok (.object (some v))) ∧
      (l.after (k + 1)).world.calls = (l.after k).world.calls := by
  have found := (l.sound_cache k).lookup_of_early early
  have answered : ((l.after k).world.registry.request (.lookup n true)).progress =
      .answered (.ok (.object (some v))) := by
    rw [Registry.request, Registry.lookup, creating, found]
    rfl
  obtain ⟨returns, -, calls⟩ := returns_at_once control answered
  exact ⟨returns, calls⟩

/-- Each call of an early factory is one of what one registration has staged. Of one registration a
second call begins only after the first one has returned, and has returned nothing. What a look-up
has answered as the early reference of a name is the answer of every later one that begins while the
name is in creation, without a call, until something is set for the name. -/
theorem promoted_once_and_stable (l : Life) (n : Name) :
    (∀ f j, (l.after j).Promotes n f →
      ∃ p < j, (l.after p).Registers n f ∧ l.StagedBy n f p j ∧
        ∀ p', l.StagedBy n f p' j → p' = p) ∧
    (∀ f p j j', l.StagedBy n f p j → (l.after j).Promotes n f →
      l.StagedBy n f p j' → (l.after j').Promotes n f → j < j' →
      ∃ i < j', ∃ returned, l.Ends j i (.promoting n f) (.ok returned) ∧
        returned.asObject = none) ∧
    ∀ j k v, (l.after j).control = .perform (.registry (.lookup n true)) →
      l.Returns j k (.ok (.object (some v))) → (l.after k).object? n = none →
      n ∈ (l.after k).world.registry.cache.registered →
      ∀ k', k ≤ k' → (∀ m, k ≤ m → m < k' → ¬ (l.access m).sets n) →
        (l.after k').control = .perform (.registry (.lookup n true)) →
        (l.after k').world.registry.flags.isInCreation n = true →
        l.Returns k' (k' + 1) (.ok (.object (some v))) ∧
          (l.after (k' + 1)).world.calls = (l.after k').world.calls := by
  refine ⟨fun f j promotes => ?_, fun f p j j' first promotes again _ later => ?_, ?_⟩
  · obtain ⟨p, h⟩ := exists_stagedBy promotes.staged
    exact ⟨p, h.lt, h.registers, h, fun p' h' => h'.unique h⟩
  · exact again.once first promotes later
  · intro j k v asks returns unbound known k' le unset control creating
    exact returns_early control creating (early_after le (returns.early asks unbound known) unset)

/-- An early factory that returns nothing at first and an object when it is called again. -/
theorem promoted_at_second_call : ∃ (l : Life) (p j i j' k : Nat),
    l.StagedBy "a" "e" p j ∧ (l.after j).Promotes "a" "e" ∧
    l.StagedBy "a" "e" p j' ∧ (l.after j').Promotes "a" "e" ∧
    (∃ returned, l.Ends j i (.promoting "a" "e") (.ok returned) ∧ returned.asObject = none) ∧
    i < j' ∧ j' < k ∧ l.Returns k (k + 1) (.ok (.object (some "x"))) ∧
    (l.after (k + 1)).world.calls = (l.after k).world.calls := by
  let look (next : Program) : Program := .perform (.registry (.lookup "a" true)) fun _ => next
  let l := ofConfig {}
    (.perform (.registry (.getOrCreate "a" (some "f"))) fun _ => .finish (.ok .nothing))
    (fun id number =>
      if id = "f" then
        .perform (.registry (.stage "a" (some "e"))) fun _ =>
          look (look (look (look (.finish (.ok (.outcome (.created (some "y"))))))))
      else .finish (.ok (.outcome (.created (if number = 0 then none else some "x")))))
    (request_public "a" "f") (by
      intro id number
      split
      · exact ⟨rfl, fun _ => ⟨rfl, fun _ => ⟨rfl, fun _ =>
          ⟨rfl, fun _ => ⟨rfl, fun _ => trivial⟩⟩⟩⟩⟩
      · exact trivial)
  have first : (l.after 3).Promotes "a" "e" :=
    Session.promotes_of_consult (by decide +kernel) (by decide +kernel) (by decide +kernel)
  have second : (l.after 6).Promotes "a" "e" :=
    Session.promotes_of_consult (by decide +kernel) (by decide +kernel) (by decide +kernel)
  have only : ∀ p < 6, (l.after p).access = .stage "a" (some "e") → p = 1 := by decide +kernel
  obtain ⟨calls, once, stable⟩ := l.promoted_once_and_stable "a"
  obtain ⟨p, lt, registers, staged, -⟩ := calls "e" 3 first
  obtain ⟨p', lt', registers', staged', -⟩ := calls "e" 6 second
  obtain rfl := only p (Nat.lt_trans lt (by decide)) registers.access
  obtain rfl := only p' lt' registers'.access
  obtain ⟨i, hi, ends⟩ := once "e" 1 3 6 staged first staged' second (by decide)
  have consults : (l.after 9).access = .consult "a" true true ∧
      (l.after 11).access = .consult "a" true true := by decide +kernel
  obtain ⟨third, creating⟩ := Session.control_of_consult consults.1
  obtain ⟨fourth, creating'⟩ := Session.control_of_consult consults.2
  have early : (l.after 9).world.registry.cache.provisional["a"]? = some (.early "x") := by
    decide +kernel
  have returns := (returns_early third creating early).1
  have unset (m : Nat) (le : 10 ≤ m) (lt : m < 11) : ¬ (l.access m).sets "a" := by
    obtain rfl : m = 10 := by omega
    decide +kernel
  obtain ⟨again, uncalled⟩ := stable 9 10 "x" third returns (by decide +kernel)
    (by decide +kernel) 11 (by decide) unset fourth creating'
  exact ⟨l, 1, 3, i, 6, 11, staged, first, staged', second, ends, hi, by decide, again, uncalled⟩

end Life

end Singletons
