import Mathlib.Data.List.Nodup
import Singletons.Proofs.Circular.Blueprint
/-!
# The names of a blueprint in the registry

While factories of a blueprint create one another, a name is untouched, under way with an early
reference to its own object, or made. Requests leave every name in one of these phases.
-/

namespace Singletons.Blueprint

/-- How far the creation of a name has come. -/
inductive Phase (b : Blueprint) (r : Registry) (n : Name) : Prop where
  | untouched (unlisted : n ∉ r.cache.registered) (idle : r.flags.isInCreation n = false)
    (unbound : r.cache.find? n = none) (nothing : r.cache.provisional[n]? = none)
  | underway (listed : n ∈ r.cache.registered) (running : r.flags.isInCreation n = true)
    (unbound : r.cache.find? n = none) (provided : r.cache.provisional[n]? =
      some (.staged (b.early n)) ∨ r.cache.provisional[n]? = some (.early (b.object n)))
  | made (listed : n ∈ r.cache.registered) (idle : r.flags.isInCreation n = false)
    (bound : r.cache.find? n = some (b.object n)) (nothing : r.cache.provisional[n]? = none)

/-- A registry that only factories of a blueprint have worked on. -/
structure Holds (b : Blueprint) (r : Registry) : Prop where
  included : ∀ n, r.flags.isExcluded n = false
  standing : r.destroying = false
  once : r.cache.registered.Nodup
  phase : ∀ n, b.Phase r n

/-- The registry once the factory of an untouched name has staged its early reference. -/
def begun (b : Blueprint) (r : Registry) (n : Name) (suppressed : Option (List Fault)) :
    Registry :=
  { r with
    flags := (r.flags.mark n).2
    cache := r.cache.stage n (b.early n)
    suppressed }

/-- The registry once the early reference of a name has been made. -/
def promoted (b : Blueprint) (r : Registry) (n : Name) : Registry :=
  { r with cache := (r.cache.unstage n).provide n (.early (b.object n)) }

/-- The registry once the factory of a name has handed its object back. -/
def ended (b : Blueprint) (r : Registry) (n : Name) (suppressed : Option (List Fault)) :
    Registry :=
  { r with
    flags := (r.flags.unmark n).2
    cache := r.cache.bind n (some (b.object n))
    suppressed }

variable {b : Blueprint} {r : Registry} {n : Name}

theorem registered_begun (unlisted : n ∉ r.cache.registered)
    (suppressed : Option (List Fault)) :
    (b.begun r n suppressed).cache.registered = r.cache.registered ++ [n] := by
  show (r.cache.stage n (b.early n)).registered = _
  rw [Cache.stage, Cache.registered_enlist]
  exact if_neg unlisted

theorem registered_ended (listed : n ∈ r.cache.registered) (suppressed : Option (List Fault)) :
    (b.ended r n suppressed).cache.registered = r.cache.registered := by
  show (r.cache.bind n (some (b.object n))).registered = _
  rw [Cache.bind, Cache.registered_enlist]
  exact if_pos listed

theorem Phase.congr {r' : Registry} (h : b.Phase r n)
    (listed : n ∈ r'.cache.registered ↔ n ∈ r.cache.registered)
    (running : r'.flags.isInCreation n = r.flags.isInCreation n)
    (bound : r'.cache.find? n = r.cache.find? n)
    (provided : r'.cache.provisional[n]? = r.cache.provisional[n]?) : b.Phase r' n := by
  cases h with
  | untouched hl hi hu hn =>
    exact .untouched (fun h => hl (listed.mp h)) (running.trans hi) (bound.trans hu)
      (provided.trans hn)
  | underway hl hr hu hp =>
    refine .underway (listed.mpr hl) (running.trans hr) (bound.trans hu) ?_
    rw [provided]
    exact hp
  | made hl hi hb hn =>
    exact .made (listed.mpr hl) (running.trans hi) (bound.trans hb) (provided.trans hn)

theorem Holds.ofConfig {config : Config} (included : config.exclusions = [])
    (canonical : Name → Name) : b.Holds (.ofConfig config canonical) := by
  refine ⟨fun n => ?_, rfl, List.nodup_nil, fun n => ?_⟩
  · simp [Registry.ofConfig, Flags.isExcluded, included]
  · refine .untouched List.not_mem_nil ?_ ?_ ?_
    · simp [Registry.ofConfig, Flags.isInCreation]
    · simp [Registry.ofConfig, Cache.find?]
    · simp [Registry.ofConfig]

namespace Holds

theorem made_of_idle (h : b.Holds r) (listed : n ∈ r.cache.registered)
    (idle : r.flags.isInCreation n = false) :
    r.cache.find? n = some (b.object n) ∧ r.cache.provisional[n]? = none := by
  cases h.phase n with
  | untouched unlisted => exact absurd listed unlisted
  | underway _ running => exact absurd running (by simp [idle])
  | made _ _ bound nothing => exact ⟨bound, nothing⟩

theorem untouched_of_unlisted (h : b.Holds r) (unlisted : n ∉ r.cache.registered) :
    r.flags.isInCreation n = false ∧ r.cache.find? n = none ∧
      r.cache.provisional[n]? = none := by
  cases h.phase n with
  | untouched _ idle unbound nothing => exact ⟨idle, unbound, nothing⟩
  | underway listed => exact absurd listed unlisted
  | made listed => exact absurd listed unlisted

theorem mark_allowed (h : b.Holds r) (idle : r.flags.isInCreation n = false) :
    (r.flags.mark n).1 = true := by
  simp [Flags.mark, h.included n, idle]

theorem mark_refused (h : b.Holds r) (running : r.flags.isInCreation n = true) :
    (r.flags.mark n).1 = false := by
  simp [Flags.mark, h.included n, running]

theorem listed_of_running (h : b.Holds r) (running : r.flags.isInCreation n = true) :
    n ∈ r.cache.registered := by
  cases h.phase n with
  | untouched _ idle => exact absurd running (by simp [idle])
  | underway listed => exact listed
  | made listed => exact listed

theorem isInCreation_begun (h : b.Holds r) (suppressed : Option (List Fault)) (m : Name) :
    (b.begun r n suppressed).flags.isInCreation m = (r.flags.isInCreation m || m = n) := by
  show (r.flags.mark n).2.isInCreation m = _
  simp [Flags.isInCreation_mark, h.included n]

theorem isInCreation_ended (h : b.Holds r) (suppressed : Option (List Fault)) (m : Name) :
    (b.ended r n suppressed).flags.isInCreation m = (r.flags.isInCreation m && m ≠ n) := by
  show (r.flags.unmark n).2.isInCreation m = _
  simp [Flags.isInCreation_unmark, h.included n]

theorem begun (h : b.Holds r) (unlisted : n ∉ r.cache.registered)
    (suppressed : Option (List Fault)) : b.Holds (b.begun r n suppressed) := by
  obtain ⟨-, unbound, -⟩ := h.untouched_of_unlisted unlisted
  have listed := registered_begun (b := b) unlisted suppressed
  refine ⟨fun m => ?_, h.standing, ?_, fun m => ?_⟩
  · exact (r.flags.isExcluded_mark n m).trans (h.included m)
  · rw [listed, ← List.concat_eq_append]
    exact (List.nodup_concat _ _).mpr ⟨unlisted, h.once⟩
  · by_cases hm : m = n
    · subst m
      refine .underway ?_ ?_ ?_ (.inl ?_)
      · simp [listed]
      · simp [h.isInCreation_begun]
      · exact (r.cache.find?_stage n n _).trans unbound
      · exact (r.cache.provisional_stage n n _).trans (if_pos rfl)
    · refine (h.phase m).congr ?_ ?_ ?_ ?_
      · simp [listed, hm]
      · simp [h.isInCreation_begun, hm]
      · exact r.cache.find?_stage n m _
      · exact (r.cache.provisional_stage n m _).trans (if_neg (Ne.symm hm))

theorem promoted (h : b.Holds r) (running : r.flags.isInCreation n = true) :
    b.Holds (b.promoted r n) := by
  have provided : ∀ m, (b.promoted r n).cache.provisional[m]? =
      if n = m then some (.early (b.object n)) else r.cache.provisional[m]? := by
    intro m
    show ((r.cache.provisional.erase n).insert n (.early (b.object n)))[m]? = _
    rw [NameMap.getElem?_insert, NameMap.getElem?_erase]
    split <;> rfl
  refine ⟨h.included, h.standing, h.once, fun m => ?_⟩
  by_cases hm : m = n
  · subst m
    cases h.phase n with
    | untouched _ idle => exact absurd running (by simp [idle])
    | underway listed _ unbound _ =>
      exact .underway listed running unbound (.inr ((provided n).trans (if_pos rfl)))
    | made _ idle => exact absurd running (by simp [idle])
  · exact (h.phase m).congr Iff.rfl rfl rfl ((provided m).trans (if_neg (Ne.symm hm)))

theorem ended (h : b.Holds r) (running : r.flags.isInCreation n = true)
    (suppressed : Option (List Fault)) : b.Holds (b.ended r n suppressed) := by
  have present := h.listed_of_running running
  have listed := registered_ended (b := b) present suppressed
  refine ⟨fun m => ?_, h.standing, ?_, fun m => ?_⟩
  · exact (r.flags.isExcluded_unmark n m).trans (h.included m)
  · rw [listed]
    exact h.once
  · by_cases hm : m = n
    · subst m
      refine .made ?_ ?_ ?_ ?_
      · rw [listed]
        exact present
      · simp [h.isInCreation_ended]
      · exact (r.cache.find?_bind n n _).trans (if_pos rfl)
      · exact (r.cache.provisional_bind n n _).trans (if_pos rfl)
    · refine (h.phase m).congr ?_ ?_ ?_ ?_
      · rw [listed]
      · simp [h.isInCreation_ended, hm]
      · exact (r.cache.find?_bind n m _).trans (if_neg (Ne.symm hm))
      · exact (r.cache.provisional_bind n m _).trans (if_neg (Ne.symm hm))

end Holds

end Singletons.Blueprint
