import Singletons.Proofs.Early.Calls
/-!
# What is lost with an early factory that throws

An early factory is taken out of the cache before it is called, and only a look-up that it returns
to puts anything in again. When it throws, the look-up throws as well, and the name stays registered
with nothing there for it.
-/

namespace Singletons

namespace Life

variable {l : Life} {i j k : Nat} {n : Name} {f : CallbackId}

/-- A factory of the name has thrown, and since it was called nothing has been set for the name and
no factory of it has returned. -/
def Loses (l : Life) (n : Name) (k : Nat) : Prop :=
  ∃ j i f thrown, i < k ∧ (l.after j).Promotes n f ∧
    l.Ends j i (.promoting n f) (.error thrown) ∧
    ∀ m, j < m → m < k → ¬ ((l.access m).sets n ∨ (l.access m).settles n)

/-- Where no operation waits, every factory that was called has returned or thrown. -/
theorem bare_idle_iff (idle : (l.after k).waiting = []) :
    (l.after k).world.registry.cache.Bare n ↔ l.Loses n k := by
  rw [bare_iff_raised]
  constructor
  · rintro ⟨j, hj, ⟨f, promotes⟩, kept⟩
    rcases waits_or_ends promotes.1 promotes.calling hj with waits | ⟨i, hi, ended, ends⟩
    · have waiting := (waits k hj le_rfl).mem_waiting
      rw [idle] at waiting
      cases waiting
    · cases ended with
      | ok returned =>
        refine absurd (.inr ?_) (kept i ends.later hi)
        change (l.access i).settles n
        rw [ends.access]
        exact decide_eq_true rfl
      | error thrown => exact ⟨j, i, f, thrown, hi, promotes, ends, kept⟩
  · rintro ⟨j, i, f, thrown, hi, promotes, ends, kept⟩
    exact ⟨j, Nat.lt_trans ends.later hi, ⟨f, promotes⟩, kept⟩

/-- The look-up of an early factory that throws throws on and puts nothing back: if nothing was set
for the name meanwhile, the name is left without the factory, and no look-up finds anything for it.
Between the operations of the owner, a registered name has no entry exactly if it has lost a factory
so. -/
theorem early_factory_lost_iff (l : Life) (n : Name) :
    (∀ j i f thrown, (l.after j).Promotes n f → l.Ends j i (.promoting n f) (.error thrown) →
      l.Returns j (i + 1) (.error thrown) ∧
      (l.after (i + 1)).world.registry.cache = (l.after i).world.registry.cache ∧
      ((∀ m, j < m → m < i → ¬ (l.access m).sets n) →
        (l.after j).world.registry.cache.provisional[n]? = some (.staged f) ∧
        (l.after (i + 1)).world.registry.cache.Bare n ∧
        ∀ early inCreation,
          (l.after (i + 1)).world.registry.cache.lookup n early inCreation = .object none)) ∧
    ∀ k, (l.after k).waiting = [] →
      ((l.after k).world.registry.cache.Bare n ↔ l.Loses n k) := by
  refine ⟨fun j i f thrown promotes ends => ⟨ends.returns rfl, ends.cache_of_error, ?_⟩,
    fun k => bare_idle_iff⟩
  intro unset
  have bare := bare_while promotes ends unset i ends.later le_rfl
  rw [ends.cache_of_error]
  exact ⟨promotes.staged, bare, bare.lookup⟩

/-- A creation that looks its own name up and fails, for which the early factory has thrown. -/
theorem registered_without_entry : ∃ (l : Life) (j i k : Nat) (f : CallbackId) (thrown : Thrown),
    (l.after j).Promotes "a" f ∧ l.Returns j (i + 1) (.error thrown) ∧
    (l.after (i + 1)).world.registry.cache.Bare "a" ∧
    (l.after k).waiting = [] ∧ (l.after k).world.registry.cache.registered = ["a"] ∧
    ¬ (l.after k).world.registry.cache.HasEntry "a" := by
  let l := plain
    (.perform (.registry (.getOrCreate "a" (some "f"))) fun _ => .finish (.ok .nothing))
    (fun id =>
      if id = "f" then
        .perform (.registry (.stage "a" (some "e"))) fun _ =>
        .perform (.registry (.lookup "a" true)) fun _ =>
        .finish (.ok (.outcome (.failed none)))
      else .finish (.error (.error "boom")))
    (request_public "a" "f") (by
      intro id
      split
      · exact ⟨rfl, fun _ => ⟨rfl, fun _ => trivial⟩⟩
      · exact trivial)
  have idle : (l.after 7).waiting = [] := List.length_eq_zero_iff.mp (by decide +kernel)
  have registered : (l.after 7).world.registry.cache.registered = ["a"] := by decide +kernel
  have free : ¬ (l.after 7).world.registry.cache.HasEntry "a" :=
    Cache.not_hasEntry.mpr ⟨by decide +kernel, by decide +kernel⟩
  have bare : (l.after 7).world.registry.cache.Bare "a" := ⟨by simp [registered], free⟩
  obtain ⟨thrown, idle_iff⟩ := l.early_factory_lost_iff "a"
  obtain ⟨j, i, f, what, hi, promotes, ends, kept⟩ := (idle_iff 7 idle).mp bare
  obtain ⟨returns, -, lost⟩ := thrown j i f what promotes ends
  have unset (m : Nat) (hm : j < m) (le : m < i) : ¬ (l.access m).sets "a" :=
    fun sets => kept m hm (Nat.lt_trans le hi) (.inl sets)
  exact ⟨l, j, i, 7, f, what, promotes, returns, (lost unset).2.1, idle, registered, free⟩

end Life

end Singletons
