import Singletons.Proofs.Early.Registrations
import Singletons.Proofs.Registry.InCreation
import Singletons.Proofs.Registry.LeftBehind
/-!
# When early references can be seen

A look-up goes by the flag of the name, and not by the call stack: it answers an early reference, or
calls the factory that makes one, exactly if a creation has flagged the name and no factory for it
has struck the flag since then. A creation of an excluded name flags nothing, so its own early
reference stays hidden from it.
-/

namespace Singletons

/-- An object that a factory has made without setting anything for the name is the answer. -/
theorem Cache.Settles.answer {c : Cache} {n : Name} {factory : CallbackId} {o : Object}
    {settled : Settled} (h : c.Settles n factory (some o) settled) (bare : c.Bare n) :
    settled.object = some o := by
  cases h with
  | found there => exact absurd (hasEntry_of_reference? there) bare.2
  | promoted _ _ => rfl
  | passed _ _ => rfl

namespace Life

variable {l : Life} {i k : Nat} {n : Name} {f : CallbackId}

/-- A creation of the name began while the name was checked, and no factory for it has ended since
then while it was checked. -/
def Exposes (l : Life) (n : Name) (k : Nat) : Prop :=
  ∃ j < k, (l.after j).Begins n ∧ (l.after j).IsChecked n ∧
    ∀ i, j < i → i < k → (l.after i).Finishes n → ¬ (l.after i).IsChecked n

theorem isFlagged_iff_exposes (l : Life) (n : Name) (k : Nat) :
    (l.after k).IsFlagged n ↔ l.Exposes n k := by
  rw [isFlagged_iff_raised, Raised, Exposes]
  simp only [and_assoc, not_and]

/-- While exclusions are left alone for names whose factories run, a name whose factory runs is
exposed exactly if it is checked. -/
theorem exposes_iff_isChecked (calm : l.Untoggled (l.after k))
    (running : n ∈ (l.after k).creating) : l.Exposes n k ↔ (l.after k).IsChecked n := by
  rw [← isFlagged_iff_exposes, Session.IsFlagged,
    ((l.reaches_after k).mirrors calm).inCreation n, and_iff_left running, Session.IsChecked]

theorem returns_nothing (control : (l.after k).control = .perform (.registry (.lookup n true)))
    (unbound : (l.after k).object? n = none) (hidden : ¬ l.Exposes n k) :
    l.Returns k (k + 1) (.ok (.object none)) ∧
      (l.after (k + 1)).world.registry = (l.after k).world.registry ∧
      (l.after (k + 1)).world.calls = (l.after k).world.calls := by
  have unflagged : (l.after k).world.registry.flags.isInCreation n = false :=
    Bool.eq_false_iff.mpr fun flagged => hidden ((isFlagged_iff_exposes l n k).mp flagged)
  have nothing : (l.after k).world.registry.cache.lookup n true false = .object none := by
    rw [Cache.lookup, show (l.after k).world.registry.cache.find? n = none from unbound]
    rfl
  have request : (l.after k).world.registry.request (.lookup n true) =
      (l.after k).world.registry.answer (.object none) := by
    rw [Registry.request, Registry.lookup, unflagged, nothing]
  obtain ⟨returns, registry, calls⟩ := returns_at_once control (congrArg Advance.progress request)
  exact ⟨returns, registry.trans (congrArg Advance.registry request), calls⟩

/-- An unbound name shows its early reference, and calls the factory that is staged to make one,
exactly while it is exposed; otherwise a look-up answers nothing and does nothing. An object that
the factory makes is the answer if it sets nothing for the name. While exclusions are left alone for
names whose factories run, those of them are exposed that are not excluded. -/
theorem early_visible_iff (l : Life) {n : Name} {k : Nat}
    (control : (l.after k).control = .perform (.registry (.lookup n true)))
    (unbound : (l.after k).object? n = none) :
    (∀ v, (l.after k).world.registry.cache.provisional[n]? = some (.early v) →
      (l.Returns k (k + 1) (.ok (.object (some v))) ↔ l.Exposes n k)) ∧
    (∀ f, (l.after k).world.registry.cache.provisional[n]? = some (.staged f) →
      ((l.after k).Promotes n f ↔ l.Exposes n k)) ∧
    (∀ f i returned o, (l.after k).Promotes n f → l.Ends k i (.promoting n f) (.ok returned) →
      returned.asObject = some o → (∀ m, k < m → m < i → ¬ (l.access m).sets n) →
      l.Returns k (i + 1) (.ok (.object (some o)))) ∧
    (¬ l.Exposes n k → l.Returns k (k + 1) (.ok (.object none)) ∧
      (l.after (k + 1)).world.registry = (l.after k).world.registry ∧
      (l.after (k + 1)).world.calls = (l.after k).world.calls) ∧
    (l.Untoggled (l.after k) → n ∈ (l.after k).creating →
      (l.Exposes n k ↔ (l.after k).world.registry.flags.isExcluded n = false)) := by
  refine ⟨fun v early => ⟨fun returns => ?_, fun exposed => ?_⟩,
    fun f staged => ⟨fun promotes => ?_, fun exposed => ?_⟩, fun f i returned o promotes ends made
      unset => ?_, fun hidden => returns_nothing control unbound hidden, exposes_iff_isChecked⟩
  · apply Classical.byContradiction
    intro hidden
    have nothing := (returns_nothing control unbound hidden).1
    cases nothing.control.symm.trans returns.control
  · have flagged := (isFlagged_iff_exposes l n k).mpr exposed
    exact (returns_early control flagged early).1
  · have flagged := (Cache.lookup_eq_promote.mp promotes.2).2.2.1
    exact (isFlagged_iff_exposes l n k).mp flagged
  · have flagged := (isFlagged_iff_exposes l n k).mpr exposed
    exact ⟨control, Cache.lookup_eq_promote.mpr ⟨unbound, rfl, flagged, staged⟩⟩
  · have bare := bare_while promotes ends unset i ends.later le_rfl
    obtain ⟨settled, settles, -, returns⟩ := ends.settles
    rw [made] at settles
    rwa [settles.answer bare] at returns

/-- An excluded name that stages an early factory for itself and looks itself up. -/
theorem hidden_from_excluded : ∃ (l : Life) (k : Nat),
    (l.after k).creating = ["a"] ∧ (l.after k).object? "a" = none ∧
    (l.after k).world.registry.cache.provisional["a"]? = some (.staged "e") ∧
    ¬ (l.after k).Promotes "a" "e" ∧ l.Returns k (k + 1) (.ok (.object none)) ∧
    (l.after (k + 1)).world.calls = (l.after k).world.calls := by
  let l := ofConfig { exclusions := ["a"] }
    (.perform (.registry (.getOrCreate "a" (some "f"))) fun _ => .finish (.ok .nothing))
    (fun id _ =>
      if id = "f" then
        .perform (.registry (.stage "a" (some "e"))) fun _ =>
        .perform (.registry (.lookup "a" true)) fun _ =>
        .finish (.ok (.outcome (.created (some "y"))))
      else .finish (.ok (.outcome (.created (some "x")))))
    (request_public "a" "f") (by
      intro id _
      split
      · exact ⟨rfl, fun _ => ⟨rfl, fun _ => trivial⟩⟩
      · exact trivial)
  have consults : (l.after 3).access = .consult "a" true false := by decide +kernel
  have control := (Session.control_of_consult consults).1
  have running : (l.after 3).creating = ["a"] := by decide +kernel
  have unbound : (l.after 3).object? "a" = none := by decide +kernel
  have staged : (l.after 3).world.registry.cache.provisional["a"]? = some (.staged "e") := by
    decide +kernel
  have calm : l.Untoggled (l.after 3) := by
    refine untoggled_of_only ⟨fun _ _ h => (by cases h), fun _ => trivial⟩ fun id _ => ?_
    dsimp only [l, ofConfig]
    split
    · exact ⟨fun _ _ h => (by cases h), fun _ => ⟨fun _ _ h => (by cases h), fun _ => trivial⟩⟩
    · exact trivial
  have excluded : (l.after 3).world.registry.flags.isExcluded "a" = true := by decide +kernel
  obtain ⟨-, calls, -, nothing, exposed⟩ := l.early_visible_iff control unbound
  have hidden : ¬ l.Exposes "a" 3 := by
    rw [exposed calm (by simp [running]), excluded]
    exact Bool.noConfusion
  obtain ⟨returns, -, uncalled⟩ := nothing hidden
  exact ⟨l, 3, running, unbound, staged, fun promotes => hidden ((calls "e" staged).mp promotes),
    returns, uncalled⟩

end Life

end Singletons
