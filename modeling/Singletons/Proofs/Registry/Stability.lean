import Singletons.Proofs.Session.Life
/-!
# Stability of bindings

A bound name keeps its object until it is removed or torn down, with one exception: a factory that
was already running for the name may end with another object, which then takes its place.
-/

namespace Singletons

namespace Session

/-- Whether the next step takes the name out of the registry. -/
def Removes (s : Session) (n : Name) : Prop :=
  match s.control with
  | .perform (.registry (.remove m)) => m = n
  | .teardown agenda => agenda.removes n
  | _ => False

/-- The object that the next step binds to the name because a factory for it has ended. -/
def makes? (s : Session) (n : Name) : Option Object :=
  match s.control with
  | .ended (.call _ _ waiting) ended => waiting.makes ended n
  | _ => none

theorem mem_creating_of_makes {s : Session} {n : Name} {o : Object} (h : s.makes? n = some o) :
    n ∈ s.creating := by
  obtain ⟨w, control, stack, history⟩ := s
  cases control with
  | ended cause ended =>
    cases cause with
    | call id k waiting =>
      cases waiting with
      | creating m outermost bare =>
        have same : m = n := by
          by_cases hm : m = n
          · exact hm
          · simp [makes?, Waiting.makes, hm] at h
        subst m
        exact List.mem_cons_self
      | promoting m f => simp [makes?, Waiting.makes] at h
      | releasing m rest => simp [makes?, Waiting.makes] at h
    | owner => simp [makes?] at h
    | block => simp [makes?] at h
  | _ => simp [makes?] at h

/-- A step that does not remove a bound name leaves its object, or puts one made for it there. -/
theorem Public.object?_step {env : Environment} {s t : Session} (hp : s.Public)
    (hs : s.step env = some t) {n : Name} {x : Object} (bound : s.object? n = some x) :
    (s.Removes n ∧ t.object? n = none) ∨
      (¬ s.Removes n ∧ t.object? n = some ((s.makes? n).getD x)) := by
  obtain ⟨a, rest, move, hr, -⟩ := step_cases hs
  rw [object?, hr]
  obtain ⟨w, control, stack, history⟩ := s
  -- A step that passes the registry by neither removes nor makes anything.
  cases move with
  | pass hc =>
    refine .inr ?_
    cases control with
    | perform op => cases op <;> first | exact ⟨id, bound⟩ | cases hc
    | teardown agenda => cases hc
    | ended cause ended => cases cause <;> first | exact ⟨id, bound⟩ | cases hc
    | answered reply => exact ⟨id, bound⟩
  | @request q hc =>
    obtain rfl : control = .perform (.registry q) := hc
    rcases w.registry.find?_request q bound with ⟨rfl, gone⟩ | ⟨other, kept⟩
    · exact .inl ⟨rfl, gone⟩
    · refine .inr ⟨?_, kept⟩
      cases q with
      | remove m => exact fun hm => other (congrArg Request.remove hm)
      | _ => exact id
  | part hc => exact absurd (hp.operation _ hc) (by simp [Operation.isPublic])
  | @teardown agenda hc =>
    obtain rfl : control = .teardown agenda := hc
    rw [Registry.find?_teardown]
    cases removed : agenda.removes n with
    | true => exact .inl ⟨removed, rfl⟩
    | false => exact .inr ⟨by simp [Removes, removed], bound⟩
  | @resume id k waiting ended _ hc _ =>
    obtain rfl : control = .ended (.call id k waiting) ended := hc
    have before : w.registry.cache.find? n = some x := bound
    rw [Registry.find?_resume, before]
    refine .inr ⟨fun h => h, ?_⟩
    show (waiting.makes ended n).or (some x) = some ((waiting.makes ended n).getD x)
    cases waiting.makes ended n <;> rfl

theorem Public.not_mem_creating_step {env : Environment} {s t : Session} (hp : s.Public)
    (hs : s.step env = some t) {n : Name} {x : Object} (bound : s.object? n = some x)
    (off : n ∉ s.creating) : n ∉ t.creating := by
  obtain ⟨a, rest, move, -, hw⟩ := step_cases hs
  rw [creating_of_waiting hw, List.mem_append, not_or]
  cases move with
  | pass hc => exact ⟨List.not_mem_nil, off⟩
  | @request q hc =>
    refine ⟨?_, off⟩
    rcases s.world.registry.request_creates q with
      ⟨_, none⟩ | ⟨_, _, _, _, none⟩ | ⟨m, unbound, _, _, one⟩
    · simp [none]
    · simp [none]
    · rw [one, List.mem_singleton]
      intro hm
      subst m
      rw [object?, unbound] at bound
      cases bound
  | part hc => exact absurd (hp.operation _ hc) (by simp [Operation.isPublic])
  | @teardown agenda hc =>
    refine ⟨?_, off⟩
    rw [(s.world.registry.teardown_creates agenda).2]
    exact List.not_mem_nil
  | @resume _ _ waiting ended _ _ hrest =>
    rw [creating, hrest, List.flatMap_cons, List.mem_append, not_or] at off
    refine ⟨?_, off.2⟩
    rw [(s.world.registry.resume_creates ended waiting).1]
    exact List.not_mem_nil

theorem Public.object?_reaches {env : Environment} (hb : ∀ id n, (env.body id n).Public)
    {s t : Session} (hp : s.Public) (ht : s.Reaches env t) {n : Name} {x : Object}
    (bound : s.object? n = some x)
    (kept : ∀ u v, s.Reaches env u → u.step env = some v → v.Reaches env t →
      ¬ u.Removes n ∧ ∀ y, u.makes? n = some y → y = x) :
    t.Public ∧ t.object? n = some x := by
  induction ht with
  | refl => exact ⟨hp, bound⟩
  | @next u v hu hs ih =>
    obtain ⟨hpu, stays⟩ := ih fun p q hsp hpq hqu => kept p q hsp hpq (.next hqu hs)
    obtain ⟨left, made⟩ := kept u v hu hs .refl
    refine ⟨hpu.step hb hs, ?_⟩
    rcases hpu.object?_step hs stays with ⟨removed, _⟩ | ⟨_, same⟩
    · exact absurd removed left
    · rw [same]
      cases hm : u.makes? n with
      | none => rfl
      | some y => exact congrArg some (made y hm)

theorem Public.idle_reaches {env : Environment} (hb : ∀ id n, (env.body id n).Public)
    {s t : Session} (hp : s.Public) (ht : s.Reaches env t) {n : Name} {x : Object}
    (bound : s.object? n = some x) (off : n ∉ s.creating)
    (kept : ∀ u v, s.Reaches env u → u.step env = some v → v.Reaches env t → ¬ u.Removes n) :
    t.Public ∧ t.object? n = some x ∧ n ∉ t.creating := by
  induction ht with
  | refl => exact ⟨hp, bound, off⟩
  | @next u v hu hs ih =>
    obtain ⟨hpu, stays, idle⟩ :=
      ih fun p q hsp hpq hqu => kept p q hsp hpq (.next hqu hs)
    refine ⟨hpu.step hb hs, ?_, hpu.not_mem_creating_step hs stays idle⟩
    rcases hpu.object?_step hs stays with ⟨removed, _⟩ | ⟨_, same⟩
    · exact absurd removed (kept u v hu hs .refl)
    · rw [same]
      cases made : u.makes? n with
      | none => rfl
      | some o => exact absurd (mem_creating_of_makes made) idle

end Session

namespace Life

/-- The binding of a name changes exactly where the name is removed or a factory that was already
running for it ends with another object. Where none is running, it stays until a removal. -/
theorem binding_changes_iff (l : Life) {s : Session} (h : l.Reaches s) {n : Name} {x : Object}
    (bound : s.object? n = some x) :
    (∀ t, s.step l.environment = some t →
      (t.object? n ≠ some x ↔
        s.Removes n ∨ ∃ y, s.makes? n = some y ∧ y ≠ x ∧ n ∈ s.creating)) ∧
    (∀ t, s.Reaches l.environment t →
      (∀ u v, s.Reaches l.environment u → u.step l.environment = some v →
        v.Reaches l.environment t → ¬ u.Removes n ∧ ∀ y, u.makes? n = some y → y = x) →
      t.object? n = some x) ∧
    (n ∉ s.creating → ∀ t, s.Reaches l.environment t →
      (∀ u v, s.Reaches l.environment u → u.step l.environment = some v →
        v.Reaches l.environment t → ¬ u.Removes n) → t.object? n = some x) := by
  refine ⟨fun t hs => ?_, fun t ht kept => ?_, fun off t ht kept => ?_⟩
  · rcases h.isPublic.object?_step hs bound with ⟨removed, gone⟩ | ⟨stays, same⟩
    · rw [gone]
      exact iff_of_true (fun h => by cases h) (.inl removed)
    · rw [same]
      cases made : s.makes? n with
      | none => simp [stays]
      | some o =>
        have running := Session.mem_creating_of_makes made
        simp [stays, running]
  · exact (h.isPublic.object?_reaches l.body_public ht bound kept).2
  · exact (h.isPublic.idle_reaches l.body_public ht bound off kept).2.1

/-- A factory that registers one object and hands back another replaces the first. -/
theorem binding_replaced : ∃ (l : Life) (s t : Session), l.Reaches s ∧ s.object? "a" = some "x" ∧
    s.step l.environment = some t ∧ ¬ s.Removes "a" ∧ t.object? "a" ≠ some "x" := by
  let l := creation (.perform (.registry (.register "a" (some "x"))) fun _ =>
    .finish (.ok (.outcome (.created (some "y"))))) ⟨rfl, fun _ => trivial⟩
  have bound : (l.after 3).object? "a" = some "x" := by decide +kernel
  have made : (l.after 3).makes? "a" = some "y" := by decide +kernel
  have step : (l.after 3).step l.environment = some (l.after 4) := step_after (by decide +kernel)
  have changes := (l.binding_changes_iff (l.reaches_after 3) bound).1 (l.after 4) step
  exact ⟨l, l.after 3, l.after 4, l.reaches_after 3, bound, step, id,
    changes.mpr (.inr ⟨"y", made, by decide, Session.mem_creating_of_makes made⟩)⟩

end Life

end Singletons
