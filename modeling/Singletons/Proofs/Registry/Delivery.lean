import Singletons.Proofs.Session.Life
/-!
# What a creation delivers

A creation that succeeds delivers the bound object, and one that fails gives a fault for its code.
The one exception is a factory that reports an object as already present, under a code that counts
as success, while no object is bound.
-/

namespace Singletons

/-- The result of a creation fits the object that is bound when it is given. -/
def Result.Delivers (r : Result Fault Object) (bound : Option Object) : Prop :=
  if r.isOk then ∃ o, r.value? = some o ∧ r.detail = none ∧ bound = some o
  else r.value? = none ∧
    ∃ fault, r.detail = some fault ∧ fault.code = r.code ∧ fault.code.isSuccess = false

namespace Result

theorem delivers_done (o : Object) : (done o : Result Fault Object).Delivers (some o) :=
  ⟨o, rfl, rfl, rfl⟩

theorem delivers_report (fault : Fault) (bound : Option Object) :
    (report fault.code (some fault) : Result Fault Object).Delivers bound ↔
      fault.code.isSuccess = false := by
  unfold Delivers
  cases h : fault.code.isSuccess with
  | true => simp [isOk, code, value?, h]
  | false => simp [isOk, code, value?, detail, h]

theorem delivers_bare (r : Result Fault Object) (bound : Option Object) :
    r.bare.Delivers bound ↔ r.Delivers bound := by
  cases h : r.isOk with
  | true =>
    have hb : r.bare.isOk = true := r.isOk_bare.trans h
    rw [Delivers, Delivers, if_pos h, if_pos hb, value?_bare]
    cases r with
    | done o => rfl
    | report c d => simp [value?]
  | false => rw [bare_of_not_isOk h]

end Result

namespace Fault

theorem code_named (f : Fault) (n : Name) : (f.named n).code = f.code := by
  unfold named
  split <;> rfl

theorem code_described (f : Fault) (message : String) : (f.described message).code = f.code := by
  unfold described
  split <;> rfl

theorem isSuccess_failing (f : Fault) {code : Code} (h : code.isSuccess = false) :
    (f.failing code).code.isSuccess = false := by
  unfold failing
  split
  · exact h
  · exact Bool.eq_false_iff.mpr ‹_›

end Fault

theorem Advance.answered_of_bare {a : Advance} {reply : Reply}
    (h : a.bare.progress = .answered reply) :
    ∃ full, a.progress = .answered full ∧ reply = full.map Answer.bare := by
  obtain ⟨r, progress, notes⟩ := a
  cases progress with
  | answered full => exact ⟨full, rfl, (Progress.answered.inj h).symm⟩
  | calling id waiting => cases waiting <;> cases h
  | tearing agenda => cases h

namespace Registry

/-- A factory leaves its object to a binding that is not there, and reports that as a success. -/
def Unfounded (r : Registry) (n : Name) (ended : Except Thrown Returned) : Prop :=
  ∃ fault, ended = .ok (.outcome (.alreadyPresent (some fault))) ∧ fault.code.isSuccess ∧
    r.cache.find? n = none

/-- The creation whose factory has ended like this is answered, and delivers with one exception. -/
private def Returns (r : Registry) (n : Name) (outermost : Bool)
    (ended : Except Thrown Returned) : Prop :=
  ∃ result, (r.created n outermost ended).progress = .answered (.ok (.creation result)) ∧
    (result.Delivers ((r.created n outermost ended).registry.cache.find? n) ↔
      ¬ r.Unfounded n ended)

theorem getOrCreate_delivers (r : Registry) (n : Name) (factory : Option CallbackId)
    {reply : Reply} (h : (r.getOrCreate n factory).progress = .answered reply) :
    ∃ result, reply = .ok (.creation result) ∧
      result.Delivers ((r.getOrCreate n factory).registry.cache.find? n) := by
  rw [cache_getOrCreate]
  unfold getOrCreate at h
  split at h
  · obtain rfl := Progress.answered.inj h
    exact ⟨_, rfl, (Result.delivers_report _ _).mpr rfl⟩
  · split at h
    · obtain rfl := Progress.answered.inj h
      rename_i o bound
      rw [bound]
      exact ⟨_, rfl, Result.delivers_done o⟩
    · split at h
      · obtain rfl := Progress.answered.inj h
        exact ⟨_, rfl, (Result.delivers_report _ _).mpr rfl⟩
      · split at h
        · obtain rfl := Progress.answered.inj h
          exact ⟨_, rfl, (Result.delivers_report _ _).mpr rfl⟩
        · cases h

/-- A creation that fails with a fault gives it the code of the fault. -/
private theorem failCreation_delivers {r : Registry} {n : Name} {outermost : Bool}
    {ended : Except Thrown Returned} {fault : Fault} (failure : fault.code.isSuccess = false)
    (founded : ¬ r.Unfounded n ended)
    (failed : r.created n outermost ended = r.failCreation n outermost fault) :
    r.Returns n outermost ended := by
  rw [Returns, failed]
  refine ⟨_, rfl, iff_of_true ((Result.delivers_report _ _).mpr ?_) founded⟩
  cases outermost
  · exact failure
  · exact failure

private theorem not_unfounded_of_bound {r : Registry} {n : Name} {o : Object}
    (h : r.cache.find? n = some o) (ended : Except Thrown Returned) :
    ¬ r.Unfounded n ended := by
  rintro ⟨fault, _, _, free⟩
  rw [h] at free
  cases free

private theorem cache_created_present (r : Registry) (n : Name) (outermost : Bool)
    (fault? : Option Fault) :
    (r.created n outermost (.ok (.outcome (.alreadyPresent fault?)))).registry.cache = r.cache := by
  obtain ⟨_, _, h⟩ := r.created_eq n outermost (.ok (.outcome (.alreadyPresent fault?)))
  rw [h]
  rfl

/-- An object that is said to be present but is not bound makes a failure, unless the factory chose
a code of success for it. -/
private theorem present_delivers (r : Registry) (n : Name) (outermost : Bool)
    (fault? : Option Fault) {ended : Except Thrown Returned}
    (he : ended = .ok (.outcome (.alreadyPresent fault?))) :
    r.Returns n outermost ended := by
  subst he
  rw [Returns, cache_created_present]
  cases bound : r.cache.find? n with
  | some o =>
    have progress : (r.created n outermost (.ok (.outcome (.alreadyPresent fault?)))).progress =
        .answered (.ok (.creation (.done o))) := by
      simp only [created, Returned.asOutcome, bound]
    exact ⟨_, progress, iff_of_true (Result.delivers_done o) (not_unfounded_of_bound bound _)⟩
  | none =>
    let fault := ((fault?.getD (Refusal.notBound.fault n)).named n).described
      Refusal.notBound.message
    have progress : (r.created n outermost (.ok (.outcome (.alreadyPresent fault?)))).progress =
        .answered (.ok (.creation (.report fault.code (some fault)))) := by
      simp only [created, Returned.asOutcome, bound]
      rfl
    refine ⟨_, progress, ?_⟩
    rw [Result.delivers_report, Fault.code_described, Fault.code_named]
    cases fault? with
    | none =>
      refine iff_of_true rfl ?_
      rintro ⟨_, h, _⟩
      cases h
    | some chosen =>
      show chosen.code.isSuccess = false ↔ _
      refine ⟨fun failure => ?_, fun founded => ?_⟩
      · rintro ⟨_, h, success, _⟩
        obtain rfl := Option.some.inj
          (Outcome.alreadyPresent.inj (Returned.outcome.inj (Except.ok.inj h)))
        exact Bool.false_ne_true (failure.symm.trans success)
      · exact Bool.eq_false_iff.mpr fun success => founded ⟨chosen, rfl, success, bound⟩

private theorem returned_delivers (r : Registry) (n : Name) (outermost : Bool)
    (returned : Returned) :
    r.Returns n outermost (.ok returned) := by
  -- Every ending but an object that is said to be present is founded.
  have founded : (∀ fault, returned ≠ .outcome (.alreadyPresent (some fault))) →
      ¬ r.Unfounded n (.ok returned) := by
    rintro other ⟨fault, h, _⟩
    exact other fault (Except.ok.inj h)
  cases returned with
  | released result => exact failCreation_delivers rfl (founded fun _ h => by cases h) rfl
  | outcome o =>
    cases o with
    | created object =>
      cases object with
      | none => exact failCreation_delivers rfl (founded fun _ h => by cases h) rfl
      | some o =>
        have bound : (r.cache.bind n (some o)).find? n = some o :=
          (r.cache.find?_bind n n (some o)).trans (if_pos rfl)
        refine ⟨.done o, rfl, iff_of_true ?_ (founded fun _ h => by cases h)⟩
        show Result.Delivers _ ((r.cache.bind n (some o)).find? n)
        rw [bound]
        exact Result.delivers_done o
    | alreadyPresent fault? => exact r.present_delivers n outermost fault? rfl
    | failed fault? =>
      exact failCreation_delivers (Fault.isSuccess_failing _ rfl)
        (founded fun _ h => by cases h) rfl

theorem created_delivers (r : Registry) (n : Name) (outermost : Bool)
    (ended : Except Thrown Returned) {answer : Answer}
    (h : (r.created n outermost ended).progress = .answered (.ok answer)) :
    ∃ result, answer = .creation result ∧
      (result.Delivers ((r.created n outermost ended).registry.cache.find? n) ↔
        ¬ r.Unfounded n ended) := by
  have returns : r.Returns n outermost ended := by
    cases ended with
    | error thrown =>
      cases ht : thrown.text? with
      | none => simp [created, ht] at h
      | some what =>
        have failed : r.created n outermost (.error thrown) =
            r.failCreation n outermost ((Refusal.factoryThrew what).fault n) := by
          simp only [created, ht]
        refine failCreation_delivers rfl ?_ failed
        rintro ⟨_, he, _⟩
        cases he
    | ok returned => exact r.returned_delivers n outermost returned
  obtain ⟨result, progress, delivers⟩ := returns
  rw [progress] at h
  obtain rfl := Except.ok.inj (Progress.answered.inj h)
  exact ⟨result, rfl, delivers⟩

theorem request_delivers (r : Registry) {q : Request} {n : Name} {factory : Option CallbackId}
    {reply : Reply} (hq : q.creation? = some (n, factory))
    (h : (r.request q).progress = .answered reply) :
    ∃ result, reply = .ok (.creation result) ∧
      result.Delivers ((r.request q).registry.cache.find? n) := by
  cases q with
  | getOrCreate m f =>
    obtain ⟨rfl, rfl⟩ := Prod.mk.inj (Option.some.inj hq)
    exact r.getOrCreate_delivers _ _ h
  | getOrCreateBare m f =>
    obtain ⟨rfl, rfl⟩ := Prod.mk.inj (Option.some.inj hq)
    obtain ⟨full, answered, rfl⟩ := Advance.answered_of_bare h
    obtain ⟨result, rfl, delivers⟩ := r.getOrCreate_delivers _ _ answered
    exact ⟨result.bare, rfl, (result.delivers_bare _).mpr delivers⟩
  | _ => simp [Request.creation?] at hq

theorem resume_delivers (r : Registry) (n : Name) (outermost bare : Bool)
    (ended : Except Thrown Returned) {answer : Answer}
    (h : (r.resume ended (.creating n outermost bare)).progress = .answered (.ok answer)) :
    ∃ result, answer = .creation result ∧
      (result.Delivers ((r.resume ended (.creating n outermost bare)).registry.cache.find? n) ↔
        ¬ r.Unfounded n ended) := by
  cases bare with
  | false => exact r.created_delivers n outermost ended h
  | true =>
    obtain ⟨full, answered, same⟩ := Advance.answered_of_bare h
    cases full with
    | error thrown => cases same
    | ok whole =>
      obtain ⟨result, rfl, delivers⟩ := r.created_delivers n outermost ended answered
      obtain rfl := Except.ok.inj same
      exact ⟨result.bare, rfl, (result.delivers_bare _).trans delivers⟩

end Registry

/-- The name whose creation the next step may answer. -/
def Control.creates? : Control → Option Name
  | perform (.registry q) => q.creation?.map (·.1)
  | ended (.call _ _ (.creating n _ _)) _ => some n
  | _ => none

namespace Session

/-- The factory of a name has left its object to a binding that is not there, as a success. -/
def Unfounded (s : Session) (n : Name) : Prop :=
  ∃ id k outermost bare ended,
    s.control = .ended (.call id k (.creating n outermost bare)) ended ∧
      s.world.registry.Unfounded n ended

/-- A creation that returns to its caller delivers the object that is bound then, or gives a fault
with its code, in all cases but one. -/
theorem creation_delivers_iff (env : Environment) {s t : Session} {n : Name} {answer : Answer}
    (hc : s.control.creates? = some n) (hs : s.step env = some t)
    (ha : t.control = .answered (.ok answer)) :
    ∃ result, answer = .creation result ∧ (result.Delivers (t.object? n) ↔ ¬ s.Unfounded n) := by
  obtain ⟨w, control, stack, history⟩ := s
  cases control with
  | perform op =>
    cases op with
    | registry q =>
      obtain rfl := Option.some.inj hs
      obtain ⟨⟨m, factory⟩, hq, rfl⟩ := Option.map_eq_some_iff.mp hc
      obtain ⟨result, same, delivers⟩ :=
        w.registry.request_delivers hq (progress_of_control_turn ha)
      obtain rfl := Except.ok.inj same
      refine ⟨result, rfl, iff_of_true ?_ ?_⟩
      · rw [object?, registry_turn]
        show result.Delivers ((w.advance _).world.registry.cache.find? m)
        rw [World.registry_advance]
        exact delivers
      · rintro ⟨_, _, _, _, _, h, _⟩
        cases h
    | _ => cases hc
  | ended cause ended =>
    cases cause with
    | call id k waiting =>
      cases waiting with
      | creating m outermost bare =>
        obtain rfl := Option.some.inj hs
        obtain rfl := Option.some.inj hc
        obtain ⟨result, rfl, delivers⟩ :=
          w.registry.resume_delivers m outermost bare ended (progress_of_control_turn ha)
        refine ⟨result, rfl, ?_⟩
        rw [object?, registry_turn, World.registry_advance, delivers]
        refine not_congr ⟨fun h => ⟨_, _, _, _, _, rfl, h⟩, ?_⟩
        rintro ⟨_, _, _, _, _, h, unfounded⟩
        obtain ⟨-, rfl⟩ := Control.ended.inj h
        exact unfounded
      | _ => cases hc
    | _ => cases hc
  | _ => cases hc

/-- A success without an object, given for an object that was said to be present. -/
theorem creation_unfounded : ∃ (l : Life) (s t : Session) (result : Result Fault Object),
    l.Reaches s ∧ s.control.creates? = some "a" ∧ s.step l.environment = some t ∧
      t.control = .answered (.ok (.creation result)) ∧ result.isOk = true ∧
      ¬ result.Delivers (t.object? "a") := by
  let l := Life.creation (.finish (.ok (.outcome (.alreadyPresent (some ⟨.ok, "a", "m", []⟩)))))
    trivial
  have creates : (l.after 1).control.creates? = some "a" := rfl
  have step : (l.after 1).step l.environment = some (l.after 2) := rfl
  have answered : (l.after 2).control =
    .answered (.ok (.creation (.report .ok (some ⟨.ok, "a", "m", []⟩)))) := rfl
  obtain ⟨result, same, delivers⟩ := creation_delivers_iff l.environment creates step answered
  obtain rfl := Answer.creation.inj same
  exact ⟨l, l.after 1, l.after 2, _, l.reaches_after 1, creates, step, answered, rfl,
    fun h => delivers.mp h ⟨_, _, _, _, _, rfl, _, rfl, rfl, rfl⟩⟩

end Session

end Singletons
