import Singletons.Proofs.Early.Calls
/-!
# What an early factory leaves

While it runs, the factory that makes an early reference to a name may bind the name, stage another
factory for it, or remove it. The look-up that has called it goes on with whatever it finds then.
-/

namespace Singletons

namespace Cache

/-- What a factory has registered for the name itself wins over the object that it hands back; and
without an entry the object is kept, or the factory put back, unless the name was removed. The
cache is the one that the factory leaves, and the other one that the look-up leaves with its
answer. -/
structure Yields (c after : Cache) (n : Name) (factory : CallbackId)
    (made answer : Option Object) : Prop where
  entry : c.HasEntry n →
    after.find? n = c.find? n ∧ after.provisional[n]? = c.provisional[n]? ∧
      ∀ o, c.reference? n = some o → answer = some o
  removed : ¬ c.HasEntry n → n ∉ c.registered → ¬ after.HasEntry n
  promoted : ¬ c.HasEntry n → n ∈ c.registered → ∀ o, made = some o →
    after.find? n = none ∧ after.provisional[n]? = some (.early o) ∧ answer = some o
  back : ¬ c.HasEntry n → n ∈ c.registered → made = none →
    after.find? n = none ∧ after.provisional[n]? = some (.staged factory)
  others : ∀ m, m ≠ n →
    after.bound[m]? = c.bound[m]? ∧ after.provisional[m]? = c.provisional[m]?

/-- Only an object takes the place of what the factory has registered, and only that of another
factory. -/
theorem Settles.yields_iff {c : Cache} {n : Name} {factory : CallbackId} {made : Option Object}
    {settled : Settled} (h : c.Settles n factory made settled) (sound : c.Sound) :
    c.Yields settled.cache n factory made settled.object ↔
      ¬ ((∃ other, c.provisional[n]? = some (.staged other)) ∧ made.isSome) := by
  have others (p : Provisional) : ∀ m, m ≠ n → (c.provide n p).bound[m]? = c.bound[m]? ∧
      (c.provide n p).provisional[m]? = c.provisional[m]? := by
    intro m other
    refine ⟨rfl, ?_⟩
    rw [provisional_provide, if_neg (Ne.symm other)]
  cases h with
  | @found _ o there =>
    have entry := hasEntry_of_reference? there
    refine iff_of_true ⟨fun _ => ⟨rfl, rfl, fun o' same => ?_⟩, fun free => absurd entry free,
      fun free => absurd entry free, fun free => absurd entry free, fun _ _ => ⟨rfl, rfl⟩⟩ ?_
    · exact there.symm.trans same
    · rintro ⟨⟨other, staged⟩, -⟩
      cases (sound.reference?_of_staged staged).symm.trans there
  | @promoted o unfound known =>
    have unbound := (reference?_eq_none.mp unfound).1
    have put : (c.provide n (.early o)).provisional[n]? = some (.early o) := by
      rw [provisional_provide, if_pos rfl]
    cases entry : c.provisional[n]? with
    | none =>
      have free := not_hasEntry.mpr ⟨unbound, entry⟩
      refine iff_of_true ⟨fun there => absurd there free, fun _ unknown => absurd known unknown,
        fun _ _ o' same => ?_, fun _ _ none => (by cases none), others _⟩ (by simp)
      obtain rfl := Option.some.inj same
      exact ⟨unbound, put, rfl⟩
    | some p =>
      have staged : ∃ other, p = .staged other := by
        cases p with
        | early o' => exact absurd entry ((reference?_eq_none.mp unfound).2 o')
        | staged other => exact ⟨other, rfl⟩
      obtain ⟨other, rfl⟩ := staged
      refine iff_of_false (fun h => ?_) (not_not_intro ⟨⟨other, rfl⟩, rfl⟩)
      have kept := (h.entry (.inr (by simp [entry]))).2.1
      cases put.symm.trans (kept.trans entry)
  | @passed o unfound unknown =>
    have free : ¬ c.HasEntry n := by
      rintro (bound | entry)
      · simp [(reference?_eq_none.mp unfound).1] at bound
      · exact unknown (sound.registered n (.inr entry))
    refine iff_of_true ⟨fun there => absurd there free, fun _ _ => free,
      fun _ known => absurd known unknown, fun _ known => absurd known unknown,
      fun _ _ => ⟨rfl, rfl⟩⟩ ?_
    rintro ⟨⟨other, staged⟩, -⟩
    exact free (.inr (by simp [staged]))
  | @kept other unbound staged =>
    have there : c.HasEntry n := .inr (by simp [staged])
    refine iff_of_true ⟨fun _ => ⟨rfl, rfl, fun o found => ?_⟩, fun free => absurd there free,
      fun free => absurd there free, fun free => absurd there free, fun _ _ => ⟨rfl, rfl⟩⟩
      (by simp)
    cases (sound.reference?_of_staged staged).symm.trans found
  | back free known =>
    refine iff_of_true ⟨fun there => absurd there free, fun _ unknown => absurd known unknown,
      fun _ _ o none => (by cases none), fun _ _ _ => ?_, others _⟩ (by simp)
    rw [provisional_provide, if_pos rfl]
    exact ⟨(not_hasEntry.mp free).1, rfl⟩
  | gone free unknown =>
    exact iff_of_true ⟨fun there => absurd there free, fun _ _ => free,
      fun _ known => absurd known unknown, fun _ known => absurd known unknown,
      fun _ _ => ⟨rfl, rfl⟩⟩ (by simp)

theorem Settles.replaces {c : Cache} {n : Name} {factory other : CallbackId} {o : Object}
    {settled : Settled} (h : c.Settles n factory (some o) settled) (sound : c.Sound)
    (staged : c.provisional[n]? = some (.staged other)) :
    settled.cache.provisional[n]? = some (.early o) ∧ settled.object = some o := by
  cases h with
  | found there => cases (sound.reference?_of_staged staged).symm.trans there
  | promoted unfound known =>
    rw [provisional_provide, if_pos rfl]
    exact ⟨rfl, rfl⟩
  | passed unfound unknown => exact absurd (sound.registered n (.inr (by simp [staged]))) unknown

end Cache

namespace Life

variable {l : Life} {i j k : Nat} {n : Name} {f : CallbackId}

/-- What an early factory has registered for its own name wins, wherever it returns at all, with one
exception: an object that it hands back takes the place of a factory that it has staged. -/
theorem own_registration_wins_iff (l : Life) {returned : Returned} (h : (l.after j).Promotes n f)
    (ends : l.Ends j i (.promoting n f) (.ok returned)) :
    (l.after j).world.registry.cache.provisional[n]? = some (.staged f) ∧
    ∃ answer, l.Returns j (i + 1) (.ok (.object answer)) ∧
      ((l.after i).world.registry.cache.Yields (l.after (i + 1)).world.registry.cache n f
          returned.asObject answer ↔
        ¬ ((∃ other, (l.after i).world.registry.cache.provisional[n]? = some (.staged other)) ∧
          returned.asObject.isSome)) ∧
      ∀ other o, (l.after i).world.registry.cache.provisional[n]? = some (.staged other) →
        returned.asObject = some o →
        (l.after (i + 1)).world.registry.cache.provisional[n]? = some (.early o) ∧
          answer = some o := by
  obtain ⟨settled, settles, cache, returns⟩ := ends.settles
  have sound := l.sound_cache i
  refine ⟨h.staged, settled.object, returns, ?_, fun other o staged made => ?_⟩
  · rw [cache]
    exact settles.yields_iff sound
  · rw [cache]
    rw [made] at settles
    exact settles.replaces sound staged

/-- An early factory that stages another one for its name and hands back an object itself. -/
theorem staged_again_and_replaced : ∃ (l : Life) (j i : Nat) (returned : Returned)
    (answer : Option Object), (l.after j).Promotes "a" "e" ∧
    l.Ends j i (.promoting "a" "e") (.ok returned) ∧ returned.asObject = some "x" ∧
    l.Returns j (i + 1) (.ok (.object answer)) ∧
    (l.after i).world.registry.cache.provisional["a"]? = some (.staged "g") ∧
    ¬ (l.after i).world.registry.cache.Yields (l.after (i + 1)).world.registry.cache "a" "e"
      (some "x") answer := by
  let l := plain
    (.perform (.registry (.getOrCreate "a" (some "f"))) fun _ => .finish (.ok .nothing))
    (fun id =>
      if id = "f" then
        .perform (.registry (.stage "a" (some "e"))) fun _ =>
        .perform (.registry (.lookup "a" true)) fun _ =>
        .finish (.ok (.outcome (.created (some "y"))))
      else
        .perform (.registry (.stage "a" (some "g"))) fun _ =>
        .finish (.ok (.outcome (.created (some "x")))))
    (request_public "a" "f") (by
      intro id
      split
      · exact ⟨rfl, fun _ => ⟨rfl, fun _ => trivial⟩⟩
      · exact ⟨rfl, fun _ => trivial⟩)
  have settles : (l.after 6).access = .settle "a" "e" (some "x") := by decide +kernel
  obtain ⟨_, _, returned, control, made⟩ := Session.ended_of_access settles
  obtain ⟨j, hj, promotes, ends⟩ := exists_promotes control
  have staged : (l.after 6).world.registry.cache.provisional["a"]? = some (.staged "g") := by
    decide +kernel
  obtain ⟨-, answer, returns, wins, -⟩ := l.own_registration_wins_iff promotes ends
  rw [made] at wins
  exact ⟨l, j, 6, returned, answer, promotes, ends, made, returns, staged,
    fun yields => wins.mp yields ⟨⟨"g", staged⟩, rfl⟩⟩

end Life

end Singletons
