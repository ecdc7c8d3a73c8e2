import Singletons.Proofs.Circular.Phase
/-!
# How requests let a registry grow

A request for a name of a blueprint ends with more names made, all of them reachable from the name,
each by one call of its factory, and together with all that they need.
-/

namespace Singletons.Blueprint

/-- What requests for some names make of a registry, and the calls in their reports. -/
structure Grows (b : Blueprint) (roots : List Name) (r r' : Registry) (reports : List Report) :
    Prop where
  running : ∀ n, r'.flags.isInCreation n = r.flags.isInCreation n
  kept : ∀ n ∈ r.cache.registered, n ∈ r'.cache.registered
  reached : ∀ n ∈ r'.cache.registered, n ∈ r.cache.registered ∨ ∃ d ∈ roots, b.Reachable d n
  closed : ∀ n ∈ r'.cache.registered, n ∉ r.cache.registered →
    ∀ d ∈ b.deps n, d ∈ r'.cache.registered
  served : ∀ n ∈ r'.cache.registered, n ∉ r.cache.registered →
    ∃ steps, Report.callsOfAll (b.factory n) reports = [steps] ∧ b.Served n steps
  uncalled : ∀ n, n ∈ r.cache.registered ∨ n ∉ r'.cache.registered →
    Report.callsOfAll (b.factory n) reports = []

variable {b : Blueprint} {env : Environment} {r r' : Registry}

namespace Grows

theorem still {roots : List Name} {reports : List Report}
    (running : ∀ n, r'.flags.isInCreation n = r.flags.isInCreation n)
    (same : r'.cache.registered = r.cache.registered)
    (uncalled : ∀ n, Report.callsOfAll (b.factory n) reports = []) :
    b.Grows roots r r' reports where
  running := running
  kept n hn := by rwa [same]
  reached n hn := .inl (by rwa [same] at hn)
  closed n hn fresh := absurd (same ▸ hn) fresh
  served n hn fresh := absurd (same ▸ hn) fresh
  uncalled n _ := uncalled n

theorem append {r'' : Registry} {ds es : List Name} {first rest : List Report}
    (hf : b.Grows ds r r' first) (hr : b.Grows es r' r'' rest) :
    b.Grows (ds ++ es) r r'' (first ++ rest) where
  running n := (hr.running n).trans (hf.running n)
  kept n hn := hr.kept n (hf.kept n hn)
  reached n hn := by
    rcases hr.reached n hn with hn' | ⟨d, hd, reach⟩
    · rcases hf.reached n hn' with old | ⟨d, hd, reach⟩
      · exact .inl old
      · exact .inr ⟨d, List.mem_append_left es hd, reach⟩
    · exact .inr ⟨d, List.mem_append_right ds hd, reach⟩
  closed n hn fresh d hd := by
    by_cases hn' : n ∈ r'.cache.registered
    · exact hr.kept d (hf.closed n hn' fresh d hd)
    · exact hr.closed n hn hn' d hd
  served n hn fresh := by
    rw [Report.callsOfAll_append]
    by_cases hn' : n ∈ r'.cache.registered
    · obtain ⟨steps, calls, served⟩ := hf.served n hn' fresh
      rw [calls, hr.uncalled n (.inl hn')]
      exact ⟨steps, rfl, served⟩
    · obtain ⟨steps, calls, served⟩ := hr.served n hn hn'
      rw [calls, hf.uncalled n (.inr hn')]
      exact ⟨steps, rfl, served⟩
  uncalled n hn := by
    have before : n ∈ r.cache.registered ∨ n ∉ r'.cache.registered :=
      hn.imp_right fun gone hn' => gone (hr.kept n hn')
    have after : n ∈ r'.cache.registered ∨ n ∉ r''.cache.registered := hn.imp_left (hf.kept n)
    rw [Report.callsOfAll_append, hf.uncalled n before, hr.uncalled n after]
    rfl

/-- What the call of a factory adds to what the names that it needs come to. -/
theorem creation {r₂ r₃ r₄ : Registry} {n : Name} {staged : Report} {reports : List Report}
    (hr : b.Realized env) (unlisted : n ∉ r.cache.registered)
    (listed : ∀ m, m ∈ r₂.cache.registered ↔ m ∈ r.cache.registered ∨ m = n)
    (grows : b.Grows (b.deps n) r₂ r₃ reports)
    (needed : ∀ d ∈ b.deps n, d ∈ r₃.cache.registered)
    (same : r₄.cache.registered = r₃.cache.registered)
    (running : ∀ m, r₄.flags.isInCreation m = r.flags.isInCreation m)
    (quiet : ∀ m, Report.callsOf (b.factory m) staged = [])
    (served : b.Served n (staged :: reports)) (reply : Reply) (k : Nat)
    (ds : List Logging.Delivery) :
    b.Grows [n] r r₄ [.operation reply [.call (b.factory n) k (staged :: reports)] ds] := by
  have present : n ∈ r₂.cache.registered := (listed n).mpr (.inr rfl)
  have calls : ∀ m, Report.callsOfAll (b.factory m)
      [.operation reply [.call (b.factory n) k (staged :: reports)] ds] =
      (if n = m then [staged :: reports] else []) ++
        Report.callsOfAll (b.factory m) reports := by
    intro m
    have known : b.factory n = b.factory m ↔ n = m :=
      ⟨fun h => hr.factory_injective h, fun h => by rw [h]⟩
    simp [Report.callsOfAll, Report.callsOf, quiet, known]
  refine ⟨running, fun m hm => ?_, fun m hm => ?_, fun m hm fresh d hd => ?_,
    fun m hm fresh => ?_, fun m hm => ?_⟩
  · rw [same]
    exact grows.kept m ((listed m).mpr (.inl hm))
  · rw [same] at hm
    rcases grows.reached m hm with hm | ⟨d, hd, reach⟩
    · rcases (listed m).mp hm with old | rfl
      · exact .inl old
      · exact .inr ⟨m, List.mem_cons_self, .refl⟩
    · exact .inr ⟨n, List.mem_cons_self, .head hd reach⟩
  · rw [same] at hm ⊢
    by_cases hmn : m = n
    · subst m
      exact needed d hd
    · exact grows.closed m hm (fun h => ((listed m).mp h).elim fresh hmn) d hd
  · rw [same] at hm
    rw [calls]
    by_cases hmn : m = n
    · subst m
      rw [if_pos rfl, grows.uncalled n (.inl present)]
      exact ⟨_, rfl, served⟩
    · rw [if_neg (Ne.symm hmn)]
      exact grows.served m hm fun h => ((listed m).mp h).elim fresh hmn
  · rw [same] at hm
    have other : n ≠ m := by
      rintro rfl
      exact hm.elim unlisted fun gone => gone (grows.kept n present)
    rw [calls, if_neg other]
    exact grows.uncalled m (hm.imp_left fun old => (listed m).mpr (.inl old))

end Grows

end Singletons.Blueprint
