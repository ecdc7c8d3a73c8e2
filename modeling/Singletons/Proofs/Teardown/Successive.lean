import Singletons.Proofs.Teardown.Order
/-!
# Teardowns one after the other

Of what is left by a teardown, a name brings about what it brought about before and is not gone.
So two names can be destroyed in either order, and a name that has been destroyed leaves nothing to
destroy.
-/

namespace Singletons

theorem NameSet.insert_of_mem {s : NameSet} {n : Name} (hn : n ∈ s) : s.insert n = s := by
  refine Std.ExtTreeSet.ext_mem fun m => ?_
  rw [NameSet.mem_insert]
  exact or_iff_right_of_imp fun same => same ▸ hn

namespace Registry

variable {r r' : Registry} {gone : NameSet} {released : List (Name × Handle)}

namespace Torn

/-- Nothing that is left is brought about by a name that is gone. -/
theorem pulls_iff (h : r.Torn gone r' released) {n m : Name} (left : m ∉ gone) :
    r'.graph.Pulls n m ↔ r.graph.Pulls n m := by
  refine ⟨h.pulls, fun pulls => ?_⟩
  have here : n ∉ gone := fun hn => left (h.closed n m hn pulls)
  rcases pulls with hm | hm
  · exact .inl ((h.cleared.dependents n m).mpr ⟨here, left, hm⟩)
  · exact .inr ((h.cleared.mem_containedIn n m).mpr ⟨here, hm⟩)

theorem reaches_iff (h : r.Torn gone r' released) {n m : Name} (left : m ∉ gone) :
    r'.graph.Reaches n m ↔ r.graph.Reaches n m := by
  constructor
  · intro path
    exact path.lift id fun _ _ => h.pulls
  · intro path
    induction path with
    | refl => exact .refl
    | @tail k m _ pulls ih =>
      have before : k ∉ gone := fun hk => left (h.closed k m hk pulls)
      exact (ih before).tail ((h.pulls_iff left).mpr pulls)

/-- The failures recorded before have nothing to do with what is torn down. -/
theorem withFaults (h : r.Torn gone r' released) (releaseFaults : List Fault) :
    ({ r with releaseFaults } : Registry).Torn gone { r' with releaseFaults } released where
  cleared := { h.cleared with
    frame := by
      rw [h.cleared.frame] }
  closed := h.closed
  mem_released := h.mem_released
  once := h.once

end Torn

/-- These names, and what they bring about, have been taken out and their handles released; the
failures that were recorded for that are left aside. -/
def Loses (r : Registry) (gone : NameSet) (r' : Registry) (released : List (Name × Handle)) :
    Prop :=
  ({ r with releaseFaults := r'.releaseFaults } : Registry).Torn gone r' released

namespace Loses

variable {r'' : Registry} {gone' : NameSet} {released' : List (Name × Handle)}

theorem trans (h : r.Loses gone r' released) (k : r'.Loses gone' r'' released') :
    r.Loses (gone ∪ gone') r'' (released ++ released') :=
  (h.withFaults r''.releaseFaults).trans k

/-- What is left is determined by what is gone. -/
theorem unique (h : r.Loses gone r' released) (k : r.Loses gone r'' released') {n : Name}
    (hn : n ∈ gone) : r'.Alike r'' :=
  ⟨r''.releaseFaults, k.cleared.unique (h.withFaults r''.releaseFaults).cleared ⟨n, hn⟩⟩

theorem bears (h : r.Loses gone r' released) {n : Name} {handle : Handle}
    (held : r'.Bears n handle) : r.Bears n handle :=
  (Torn.bears h).mp held |>.2

/-- The same handles are released where the same names are gone, in whatever order. -/
theorem perm (h : r.Loses gone r' released) (k : r.Loses gone r'' released') :
    released.Perm released' := by
  rw [List.perm_ext_iff_of_nodup h.once.of_map k.once.of_map]
  rintro ⟨n, handle⟩
  rw [h.mem_released, k.mem_released]
  rfl

end Loses

/-! ## A name that is gone -/

section Gone

variable (h : r.Cleared gone r') {n : Name} (hn : n ∈ gone)

include h hn

/-- None of the three strokes makes a difference to a name that is gone. -/
theorem withdraw_gone : r'.withdraw n = r' := by
  have again := h.withdraw n
  rw [NameSet.insert_of_mem hn] at again
  exact again.unique h ⟨n, hn⟩

theorem empty_gone : { r' with graph := r'.graph.detachContained n } = r' := by
  have again := h.empty n
  rw [NameSet.insert_of_mem hn] at again
  exact again.unique h ⟨n, hn⟩

theorem forget_gone :
    { r' with graph := (r'.graph.scrub n).removeDependencies n } = r' := by
  have again := h.forget n
  rw [NameSet.insert_of_mem hn] at again
  exact again.unique h ⟨n, hn⟩

theorem dependentsOf_gone : r'.graph.dependentsOf n = [] :=
  List.eq_nil_iff_forall_not_mem.mpr fun m hm => ((h.dependents n m).mp hm).1 hn

theorem containedIn_gone : r'.graph.containedIn n = [] :=
  List.eq_nil_iff_forall_not_mem.mpr fun m hm => ((h.mem_containedIn n m).mp hm).1 hn

theorem handle?_gone : r'.disposables.handle? n = none := by
  rw [h.handle?, if_pos hn]

end Gone

end Registry

namespace Session

variable {env : Environment} {w : World}

/-- A step of a teardown that changes nothing and notes nothing is no event. -/
theorem leads_idle {agenda rest : Agenda}
    (h : w.registry.teardown agenda =
      { registry := w.registry, progress := .tearing rest, notes := [] }) :
    Leads env w (.teardown agenda) w (.teardown rest) [] :=
  leads_tearing h rfl

/-- The destruction of a name that is gone is asked for and answered, and that is all. -/
theorem leads_gone {r : Registry} {gone : NameSet} (h : r.Cleared gone w.registry) {n : Name}
    (hn : n ∈ gone) :
    Leads env w (.perform (.registry (.destroy n))) w (.answered (.ok .nothing))
      [.began (.registry (.destroy n)), .answered (.ok .nothing)] := by
  let seen : NameSet := (∅ : NameSet).insert n
  have asked : Leads env w (.perform (.registry (.destroy n))) w (.teardown ⟨[.root n], ∅⟩)
      [.began (.registry (.destroy n))] :=
    leads_requested rfl
  have begun : Leads env w (.teardown ⟨[.root n], ∅⟩) w (.teardown ⟨[.visit n], ∅⟩) [] :=
    leads_idle rfl
  have visited : Leads env w (.teardown ⟨[.visit n], ∅⟩) w
      (.teardown ⟨[.release n .null, .inside n, .forget n], seen⟩) [] := by
    refine leads_idle ?_
    simp [Registry.teardown, Registry.dependentsOf_gone h hn, Registry.handle?_gone h hn,
      Registry.withdraw_gone h hn, seen]
  have released : Leads env w (.teardown ⟨[.release n .null, .inside n, .forget n], seen⟩) w
      (.teardown ⟨[.inside n, .forget n], seen⟩) [] :=
    leads_idle rfl
  have emptied : Leads env w (.teardown ⟨[.inside n, .forget n], seen⟩) w
      (.teardown ⟨[.forget n], seen⟩) [] := by
    refine leads_idle ?_
    simp [Registry.teardown, Registry.empty_gone h hn, Registry.containedIn_gone h hn]
  have forgotten : Leads env w (.teardown ⟨[.forget n], seen⟩) w (.teardown ⟨[], seen⟩) [] := by
    refine leads_idle ?_
    simp [Registry.teardown, Registry.forget_gone h hn]
  exact asked.trans (begun.trans (visited.trans (released.trans (emptied.trans
    (forgotten.trans (leads_done w seen))))))

/-- Where release callbacks leave the registry alone, the destruction of a name ends, and what the
name brings about is lost. -/
theorem exists_destroys_loses (quiet : env.Quiet w.registry) (n : Name) :
    ∃ gone released w', (∀ m, m ∈ gone ↔ w.registry.graph.Reaches n m) ∧
      w.registry.Loses gone w'.registry released ∧ Destroys env w (.destroy n) w' released := by
  obtain ⟨gone, released, torn, w', closure, tears, destroys, faults, same⟩ :=
    exists_destroys_torn quiet n
  refine ⟨gone, released, w', closure, ?_, destroys⟩
  rw [Registry.Loses, same]
  exact tears.withFaults faults

/-- Two destructions, one after the other, lose together what the two names bring about. -/
theorem exists_destroys_both (quiet : env.Quiet w.registry) (a b : Name) :
    ∃ gone w₁ w₂ released₁ released₂,
      (∀ m, m ∈ gone ↔ w.registry.graph.Reaches a m ∨ w.registry.graph.Reaches b m) ∧
      Destroys env w (.destroy a) w₁ released₁ ∧ Destroys env w₁ (.destroy b) w₂ released₂ ∧
      w.registry.Loses gone w₂.registry (released₁ ++ released₂) ∧
      Leads env w₁ (.perform (.registry (.destroy a))) w₁ (.answered (.ok .nothing))
        [.began (.registry (.destroy a)), .answered (.ok .nothing)] := by
  obtain ⟨gone₁, released₁, w₁, closure₁, loses₁, destroys₁⟩ := exists_destroys_loses quiet a
  have calm : env.Quiet w₁.registry := fun n id held => quiet n id (loses₁.bears ⟨held, nofun⟩).1
  obtain ⟨gone₂, released₂, w₂, closure₂, loses₂, destroys₂⟩ := exists_destroys_loses calm b
  refine ⟨gone₁ ∪ gone₂, w₁, w₂, released₁, released₂, fun m => ?_, destroys₁, destroys₂,
    loses₁.trans loses₂, leads_gone loses₁.cleared ((closure₁ a).mpr .refl)⟩
  rw [Std.ExtTreeSet.mem_union_iff, closure₂, ← closure₁]
  by_cases left : m ∈ gone₁
  · exact iff_of_true (.inl left) (.inl left)
  · exact or_congr_right (Registry.Torn.reaches_iff loses₁ left)

/-- Where release callbacks leave the registry alone, two names can be destroyed in either order:
both ways end, with the same registry up to the failures that are recorded, having released the
handles of all that the two names bring about, each once. When a name has just been destroyed, its
destruction is answered without anything being released, changed or noted. -/
theorem destroys_either_order (env : Environment) (w : World) (quiet : env.Quiet w.registry)
    (a b : Name) :
    ∃ w₁ w₂ v₁ v₂ released₁ released₂ freed₁ freed₂,
      (Destroys env w (.destroy a) w₁ released₁ ∧ Destroys env w₁ (.destroy b) w₂ released₂) ∧
      (Destroys env w (.destroy b) v₁ freed₁ ∧ Destroys env v₁ (.destroy a) v₂ freed₂) ∧
      w₂.registry.Alike v₂.registry ∧
      (released₁ ++ released₂).Perm (freed₁ ++ freed₂) ∧
      (∀ n handle, (n, handle) ∈ released₁ ++ released₂ ↔
        (w.registry.graph.Reaches a n ∨ w.registry.graph.Reaches b n) ∧
          w.registry.Bears n handle) ∧
      ((released₁ ++ released₂).map (·.1)).Nodup ∧
      Leads env w₁ (.perform (.registry (.destroy a))) w₁ (.answered (.ok .nothing))
        [.began (.registry (.destroy a)), .answered (.ok .nothing)] := by
  obtain ⟨gone, w₁, w₂, released₁, released₂, closure, first, second, loses, again⟩ :=
    exists_destroys_both quiet a b
  obtain ⟨gone', v₁, v₂, freed₁, freed₂, closure', first', second', loses', -⟩ :=
    exists_destroys_both quiet b a
  obtain rfl : gone' = gone := by
    refine Std.ExtTreeSet.ext_mem fun m => ?_
    rw [closure, closure', or_comm]
  refine ⟨w₁, w₂, v₁, v₂, released₁, released₂, freed₁, freed₂, ⟨first, second⟩,
    ⟨first', second'⟩, loses.unique loses' ((closure a).mpr (.inl .refl)), loses.perm loses',
    fun n handle => ?_, loses.once, again⟩
  rw [loses.mem_released, closure]
  rfl

/-- A name is both a dependent of the first name and, under an alias, a part of the second, which
keeps it filed when the first is destroyed: it is released once in either order, although its
callback throws, and a name beside is left alone. -/
theorem destroys_either_order_alias :
    ∃ (env : Environment) (w w₁ w₂ v₁ v₂ : World)
      (released₁ released₂ freed₁ freed₂ : List (Name × Handle)),
      env.Quiet w.registry ∧
      (Destroys env w (.destroy "a") w₁ released₁ ∧
        Destroys env w₁ (.destroy "c") w₂ released₂) ∧
      (Destroys env w (.destroy "c") v₁ freed₁ ∧ Destroys env v₁ (.destroy "a") v₂ freed₂) ∧
      w₂.registry.Alike v₂.registry ∧ (released₁ ++ released₂).Perm (freed₁ ++ freed₂) ∧
      ("X", .callback "f") ∈ released₁ ++ released₂ ∧ ("d", .idle) ∉ released₁ ++ released₂ := by
  let r : Registry := {
    graph := (Graph.depend { canonical := fun n => if n = "X" then "x" else n } "a" "X").contain
      "c" "X"
    disposables := ⟨[("a", .idle), ("X", .callback "f"), ("c", .idle), ("d", .idle)]⟩ }
  let env : Environment :=
    { body := fun _ _ => .finish (.error (.foreign 0)), host := default }
  have quiet : env.Quiet r := fun _ _ _ _ => trivial
  obtain ⟨w₁, w₂, v₁, v₂, released₁, released₂, freed₁, freed₂, one, other, alike, perm, mem, -⟩ :=
    destroys_either_order env { registry := r } quiet "a" "c"
  have reached : r.graph.Reaches "a" "X" := .single (.inl (by decide +kernel))
  have within {n m : Name} (hn : n ∈ ["a", "X", "c"]) (path : r.graph.Reaches n m) :
      m ∈ ["a", "X", "c"] := by
    have confined : ∀ n ∈ ["a", "X", "c"], ∀ m ∈ r.graph.dependentsOf n ++ r.graph.containedIn n,
        m ∈ ["a", "X", "c"] := by decide +kernel
    induction path with
    | refl => exact hn
    | tail _ pulls ih => exact confined _ ih _ (List.mem_append.mpr pulls)
  refine ⟨env, { registry := r }, w₁, w₂, v₁, v₂, released₁, released₂, freed₁, freed₂, quiet, one,
    other, alike, perm, (mem _ _).mpr ⟨.inl reached, by decide, by decide⟩, fun h => ?_⟩
  rcases ((mem _ _).mp h).1 with path | path
  · exact absurd (within (by decide) path) (by decide)
  · exact absurd (within (by decide) path) (by decide)

end Session

end Singletons
