import Singletons.Proofs.Cache.Mirror
/-!
# What the cache has for one name

An operation of the cache concerns one name, but for the one that clears it. A name that is looked
up with an early factory staged is left without any entry while the factory runs; only the end of
the factory, or another operation that sets what is there for the name, puts in a new one.
-/

namespace Singletons

deriving instance DecidableEq for Cache.Access

namespace Cache

/-- The object that stands for a name: the bound one, or else an early reference. -/
def reference? (c : Cache) (n : Name) : Option Object :=
  (c.find? n).or (match c.provisional[n]? with
    | some (.early o) => some o
    | _ => none)

/-- A name is in one of the tiers. -/
def HasEntry (c : Cache) (n : Name) : Prop :=
  (c.find? n).isSome ∨ (c.provisional[n]?).isSome

theorem not_hasEntry {c : Cache} {n : Name} :
    ¬ c.HasEntry n ↔ c.find? n = none ∧ c.provisional[n]? = none := by
  rw [HasEntry, not_or, Option.not_isSome_iff_eq_none, Option.not_isSome_iff_eq_none]

theorem reference?_eq_none {c : Cache} {n : Name} :
    c.reference? n = none ↔ c.find? n = none ∧ ∀ o, c.provisional[n]? ≠ some (.early o) := by
  rw [reference?, Option.or_eq_none_iff]
  refine and_congr_right fun _ => ?_
  cases c.provisional[n]? with
  | none => simp
  | some p => cases p <;> simp

theorem of_reference? {c : Cache} {n : Name} {o : Object} (h : c.reference? n = some o) :
    c.find? n = some o ∨ c.provisional[n]? = some (.early o) := by
  rw [reference?, Option.or_eq_some_iff] at h
  refine h.imp_right fun ⟨_, early⟩ => ?_
  cases entry : c.provisional[n]? with
  | none => simp [entry] at early
  | some p =>
    cases p with
    | early o' => simpa [entry] using early
    | staged f => simp [entry] at early

theorem hasEntry_of_reference? {c : Cache} {n : Name} {o : Object} (h : c.reference? n = some o) :
    c.HasEntry n := by
  apply Classical.byContradiction
  intro free
  obtain ⟨unbound, none⟩ := not_hasEntry.mp free
  have nothing : c.reference? n = .none := reference?_eq_none.mpr ⟨unbound, by simp [none]⟩
  cases nothing.symm.trans h

theorem provisional_provide (c : Cache) (n m : Name) (p : Provisional) :
    (c.provide n p).provisional[m]? = if n = m then some p else c.provisional[m]? :=
  NameMap.getElem?_insert c.provisional n m p

/-- All that the end of an early factory can come to. -/
inductive Settles (c : Cache) (n : Name) (factory : CallbackId) :
    Option Object → Settled → Prop where
  | found {made : Option Object} {o : Object} (there : c.reference? n = some o) :
    Settles c n factory made { object := some o, cache := c }
  | promoted {o : Object} (unfound : c.reference? n = none) (known : n ∈ c.registered) :
    Settles c n factory (some o)
      { object := some o, cache := c.provide n (.early o), promoted := true }
  | passed {o : Object} (unfound : c.reference? n = none) (unknown : n ∉ c.registered) :
    Settles c n factory (some o) { object := some o, cache := c }
  | kept {other : CallbackId} (unbound : c.find? n = none)
    (staged : c.provisional[n]? = some (.staged other)) :
    Settles c n factory none { object := none, cache := c }
  | back (free : ¬ c.HasEntry n) (known : n ∈ c.registered) :
    Settles c n factory none { object := none, cache := c.provide n (.staged factory) }
  | gone (free : ¬ c.HasEntry n) (unknown : n ∉ c.registered) :
    Settles c n factory none { object := none, cache := c }

theorem settles (c : Cache) (n : Name) (factory : CallbackId) (made : Option Object) :
    c.Settles n factory made (c.settle n factory made) := by
  have known : c.isRegistered n = decide (n ∈ c.registered) := by
    rw [isRegistered, List.contains_eq_mem]
  unfold settle
  cases bound : c.find? n with
  | some o => exact .found (by rw [reference?, bound]; rfl)
  | none =>
    rw [known]
    cases entry : c.provisional[n]? with
    | none =>
      have free := not_hasEntry.mpr ⟨bound, entry⟩
      have unfound := reference?_eq_none.mpr ⟨bound, by simp [entry]⟩
      cases made with
      | none =>
        by_cases there : n ∈ c.registered
        · simp only [there, decide_true, if_true]
          exact .back free there
        · simp only [there, decide_false, Bool.false_eq_true, if_false]
          exact .gone free there
      | some o =>
        by_cases there : n ∈ c.registered
        · simp only [there, decide_true, if_true]
          exact .promoted unfound there
        · simp only [there, decide_false, Bool.false_eq_true, if_false]
          exact .passed unfound there
    | some p =>
      cases p with
      | early o => exact .found (by rw [reference?, bound, entry]; rfl)
      | staged other =>
        have unfound := reference?_eq_none.mpr ⟨bound, by simp [entry]⟩
        cases made with
        | none => exact .kept bound entry
        | some o =>
          by_cases there : n ∈ c.registered
          · simp only [there, decide_true, if_true]
            exact .promoted unfound there
          · simp only [there, decide_false, Bool.false_eq_true, if_false]
            exact .passed unfound there

theorem lookup_eq_promote {c : Cache} {n : Name} {early inCreation : Bool} {f : CallbackId} :
    c.lookup n early inCreation = .promote f ↔
      c.find? n = none ∧ early = true ∧ inCreation = true ∧
        c.provisional[n]? = some (.staged f) := by
  rw [lookup]
  cases c.find? n with
  | some o => simp
  | none =>
    cases early with
    | false => simp
    | true =>
      cases inCreation with
      | false => simp
      | true =>
        simp only [Bool.and_self, if_true, true_and]
        cases c.provisional[n]? with
        | none => simp
        | some p => cases p <;> simp

theorem of_lookup {c : Cache} {n : Name} {early inCreation : Bool} {o : Object}
    (h : c.lookup n early inCreation = .object (some o)) :
    c.find? n = some o ∨ c.provisional[n]? = some (.early o) := by
  rw [lookup] at h
  cases bound : c.find? n with
  | some o' =>
    rw [bound] at h
    cases h
    exact .inl rfl
  | none =>
    rw [bound] at h
    dsimp only at h
    split at h
    · cases entry : c.provisional[n]? with
      | none =>
        rw [entry] at h
        cases h
      | some p =>
        rw [entry] at h
        cases p with
        | early o' =>
          cases h
          exact .inr rfl
        | staged f => cases h
    · cases h

theorem Sound.find?_of_provisional {c : Cache} (sound : c.Sound) {n : Name} {p : Provisional}
    (entry : c.provisional[n]? = some p) : c.find? n = none := by
  rw [find?, (sound.apart n).resolve_right (by simp [entry])]
  rfl

theorem Sound.reference?_of_staged {c : Cache} (sound : c.Sound) {n : Name} {f : CallbackId}
    (staged : c.provisional[n]? = some (.staged f)) : c.reference? n = none :=
  reference?_eq_none.mpr ⟨sound.find?_of_provisional staged, by simp [staged]⟩

theorem provisional_unstage (c : Cache) (n m : Name) :
    (c.unstage n).provisional[m]? = if n = m then none else c.provisional[m]? :=
  NameMap.getElem?_erase c.provisional n m

theorem mem_registered_enlist (c : Cache) (n m : Name) :
    m ∈ (c.enlist n).registered ↔ m = n ∨ m ∈ c.registered := by
  rw [registered_enlist]
  split
  · grind
  · rw [List.mem_append, List.mem_singleton, or_comm]

theorem mem_registered_bind (c : Cache) (n m : Name) (o : Option Object) :
    m ∈ (c.bind n o).registered ↔ m = n ∨ m ∈ c.registered :=
  mem_registered_enlist _ n m

theorem mem_registered_stage (c : Cache) (n m : Name) (f : CallbackId) :
    m ∈ (c.stage n f).registered ↔ m = n ∨ m ∈ c.registered :=
  mem_registered_enlist _ n m

theorem mem_registered_remove (c : Cache) (n m : Name) :
    m ∈ (c.remove n).registered ↔ m ≠ n ∧ m ∈ c.registered := by
  rw [remove, List.mem_filter, bne_iff_ne, and_comm]

/-- Two caches have the same for a name. -/
structure SameAt (c d : Cache) (n : Name) : Prop where
  bound : d.bound[n]? = c.bound[n]?
  provisional : d.provisional[n]? = c.provisional[n]?
  registered : n ∈ d.registered ↔ n ∈ c.registered

namespace SameAt

variable {c d : Cache} {n m : Name}

theorem find? (h : c.SameAt d n) : d.find? n = c.find? n := by
  rw [Cache.find?, Cache.find?, h.bound]

theorem hasEntry_iff (h : c.SameAt d n) : d.HasEntry n ↔ c.HasEntry n := by
  rw [HasEntry, HasEntry, h.find?, h.provisional]

protected theorem rfl : c.SameAt c n := ⟨rfl, rfl, Iff.rfl⟩

theorem bind (other : n ≠ m) (o : Option Object) : c.SameAt (c.bind m o) n := by
  refine ⟨?_, ?_, ?_⟩
  · rw [bound_bind, if_neg (Ne.symm other)]
  · rw [provisional_bind, if_neg (Ne.symm other)]
  · rw [mem_registered_bind, or_iff_right other]

theorem stage (other : n ≠ m) (f : CallbackId) : c.SameAt (c.stage m f) n := by
  refine ⟨?_, ?_, ?_⟩
  · rw [bound_stage]
  · rw [provisional_stage, if_neg (Ne.symm other)]
  · rw [mem_registered_stage, or_iff_right other]

theorem provide (other : n ≠ m) (p : Provisional) : c.SameAt (c.provide m p) n := by
  refine ⟨rfl, ?_, Iff.rfl⟩
  rw [provisional_provide, if_neg (Ne.symm other)]

theorem unstage (other : n ≠ m) : c.SameAt (c.unstage m) n := by
  refine ⟨rfl, ?_, Iff.rfl⟩
  rw [provisional_unstage, if_neg (Ne.symm other)]

theorem remove (other : n ≠ m) : c.SameAt (c.remove m) n := by
  refine ⟨?_, ?_, ?_⟩
  · rw [Cache.remove, NameMap.getElem?_erase, if_neg (Ne.symm other)]
  · rw [provisional_remove, if_neg (Ne.symm other)]
  · rw [mem_registered_remove, and_iff_right other]

theorem settle (other : n ≠ m) (f : CallbackId) (made : Option Object) :
    c.SameAt (c.settle m f made).cache n := by
  have settles := c.settles m f made
  generalize c.settle m f made = settled at settles ⊢
  cases settles with
  | promoted _ _ => exact provide other _
  | back _ _ => exact provide other _
  | _ => exact .rfl

end SameAt

namespace Access

/-- Whether an operation binds the name, stages a factory for it or removes it. -/
def sets (n : Name) : Access → Bool
  | register m object => m = n && object.isSome
  | bind m _ => m = n
  | consult _ _ _ => false
  | settle _ _ _ => false
  | stage m factory => m = n && factory.isSome
  | remove m => m = n
  | clear => true
  | leaves => false

/-- Whether an operation goes on after an early factory of the name. -/
def settles (n : Name) : Access → Bool
  | settle m _ _ => m = n
  | _ => false

/-- Whether only a request performs an operation. -/
def isAsked : Access → Bool
  | register _ _ => true
  | consult _ _ _ => true
  | stage _ _ => true
  | _ => false

theorem exists_of_settles {n : Name} {a : Access} (h : a.settles n) :
    ∃ f made, a = .settle n f made := by
  cases a with
  | settle m f made =>
    obtain rfl := of_decide_eq_true h
    exact ⟨f, made, rfl⟩
  | _ => cases h

end Access

/-- Whether a look-up of the name takes its early factory out. -/
def Promoting (c : Cache) (n : Name) (a : Access) : Prop :=
  ∃ f early inCreation, a = .consult n early inCreation ∧ c.lookup n early inCreation = .promote f

/-- What an operation neither sets nor settles nor takes out, it leaves alone. -/
theorem sameAt_access {c : Cache} {a : Access} {n : Name} (unset : a.sets n = false)
    (unsettled : a.settles n = false) (idle : ¬ c.Promoting n a) : c.SameAt (c.access a) n := by
  have apart {m : Name} (h : decide (m = n) = false) : n ≠ m :=
    Ne.symm (of_decide_eq_false h)
  cases a with
  | register m object =>
    cases object with
    | none => exact .rfl
    | some o =>
      rw [access]
      split
      · exact .bind (apart (by simpa [Access.sets] using unset)) _
      · exact .rfl
  | bind m o => exact .bind (apart unset) _
  | consult m early inCreation =>
    rw [access]
    split
    · exact .rfl
    · rename_i f promotes
      refine .unstage fun same => idle ?_
      subst same
      exact ⟨f, early, inCreation, rfl, promotes⟩
  | settle m f made => exact .settle (apart unsettled) f made
  | stage m factory =>
    cases factory with
    | none => exact .rfl
    | some f =>
      rw [access]
      split
      · exact .rfl
      · exact .stage (apart (by simpa [Access.sets] using unset)) f
  | remove m => exact .remove (apart unset)
  | clear => cases unset
  | leaves => exact .rfl

/-- A name is registered, and nothing is there for it. -/
def Bare (c : Cache) (n : Name) : Prop := n ∈ c.registered ∧ ¬ c.HasEntry n

theorem SameAt.bare_iff {c d : Cache} {n : Name} (h : c.SameAt d n) : d.Bare n ↔ c.Bare n := by
  rw [Bare, Bare, h.registered, h.hasEntry_iff]

theorem not_bare_of_find? {c : Cache} {n : Name} {o : Object} (h : c.find? n = some o) :
    ¬ c.Bare n :=
  fun bare => bare.2 (.inl (by simp [h]))

theorem not_bare_of_provisional {c : Cache} {n : Name} {p : Provisional}
    (h : c.provisional[n]? = some p) : ¬ c.Bare n :=
  fun bare => bare.2 (.inr (by simp [h]))

/-- No look-up finds anything for a bare name, and none calls a factory. -/
theorem Bare.lookup {c : Cache} {n : Name} (h : c.Bare n) (early inCreation : Bool) :
    c.lookup n early inCreation = .object none := by
  obtain ⟨unbound, none⟩ := not_hasEntry.mp h.2
  rw [Cache.lookup, unbound, none]
  exact ite_self _

theorem Settles.not_bare {c : Cache} {n : Name} {f : CallbackId} {made : Option Object}
    {settled : Settled} (h : c.Settles n f made settled) : ¬ settled.cache.Bare n := by
  cases h with
  | found there => exact fun bare => bare.2 (hasEntry_of_reference? there)
  | promoted _ _ => exact not_bare_of_provisional ((c.provisional_provide n n _).trans (if_pos rfl))
  | passed _ unknown => exact fun bare => unknown bare.1
  | kept _ staged => exact not_bare_of_provisional staged
  | back _ _ => exact not_bare_of_provisional ((c.provisional_provide n n _).trans (if_pos rfl))
  | gone _ unknown => exact fun bare => unknown bare.1

/-- What sets something for a name stages a factory, or leaves the name bound or struck. -/
theorem Sound.of_sets {c : Cache} (sound : c.Sound) {a : Access} {n : Name} (sets : a.sets n) :
    (∃ f, a = .stage n (some f) ∧ c.find? n = none ∧
        (c.access a).provisional[n]? = some (.staged f)) ∨
      ((c.access a).provisional[n]? = none ∧
        ((∃ o, (c.access a).find? n = some o) ∨ n ∉ (c.access a).registered)) := by
  cases a with
  | register m object =>
    obtain ⟨same, some⟩ := Bool.and_eq_true_iff.mp sets
    obtain rfl := of_decide_eq_true same
    obtain ⟨o, rfl⟩ := Option.isSome_iff_exists.mp some
    rw [access]
    split
    · exact .inr ⟨(c.provisional_bind m m _).trans (if_pos rfl),
        .inl ⟨o, (c.find?_bind m m _).trans (if_pos rfl)⟩⟩
    · rename_i there
      simp only [Option.isSome_some, Bool.true_and, Option.isNone_iff_eq_none] at there
      obtain ⟨object, bound⟩ := Option.ne_none_iff_exists'.mp there
      cases object with
      | none => exact absurd bound (sound.present m)
      | some own =>
        refine .inr ⟨(sound.apart m).resolve_left there, .inl ⟨own, ?_⟩⟩
        rw [find?, bound]
        rfl
  | bind m o =>
    obtain rfl := of_decide_eq_true sets
    exact .inr ⟨(c.provisional_bind m m _).trans (if_pos rfl),
      .inl ⟨o, (c.find?_bind m m _).trans (if_pos rfl)⟩⟩
  | stage m factory =>
    obtain ⟨same, some⟩ := Bool.and_eq_true_iff.mp sets
    obtain rfl := of_decide_eq_true same
    obtain ⟨f, rfl⟩ := Option.isSome_iff_exists.mp some
    rw [access]
    cases bound : c.find? m with
    | none => exact .inl ⟨f, rfl, rfl, (c.provisional_stage m m f).trans (if_pos rfl)⟩
    | some o =>
      have there : c.bound[m]? ≠ none := by
        intro none
        rw [find?, none] at bound
        cases bound
      exact .inr ⟨(sound.apart m).resolve_left there, .inl ⟨o, bound⟩⟩
  | remove m =>
    obtain rfl := of_decide_eq_true sets
    exact .inr ⟨(c.provisional_remove m m).trans (if_pos rfl),
      .inr fun known => ((c.mem_registered_remove m m).mp known).1 rfl⟩
  | clear => exact .inr ⟨by simp [access, Cache.clear], .inr List.not_mem_nil⟩
  | _ => cases sets

theorem Sound.not_bare_of_sets {c : Cache} (sound : c.Sound) {a : Access} {n : Name}
    (sets : a.sets n) : ¬ (c.access a).Bare n := by
  rcases sound.of_sets sets with ⟨f, -, -, staged⟩ | ⟨-, ⟨o, bound⟩ | gone⟩
  · exact not_bare_of_provisional staged
  · exact not_bare_of_find? bound
  · exact fun bare => gone bare.1

theorem Sound.bare_of_promoting {c : Cache} (sound : c.Sound) {a : Access} {n : Name}
    (h : c.Promoting n a) : (c.access a).Bare n := by
  obtain ⟨f, early, inCreation, rfl, promotes⟩ := h
  obtain ⟨unbound, -, -, staged⟩ := lookup_eq_promote.mp promotes
  rw [access, promotes]
  refine ⟨sound.registered n (.inr (by simp [staged])), not_hasEntry.mpr ⟨unbound, ?_⟩⟩
  rw [provisional_unstage, if_pos rfl]

/-- Nothing but a look-up that takes its factory out leaves a name bare, until something is set for
it or a factory for it has returned. -/
theorem Sound.bare_access {c : Cache} (sound : c.Sound) (a : Access) (n : Name) :
    (c.access a).Bare n ↔
      c.Promoting n a ∨ (c.Bare n ∧ ¬ (a.sets n ∨ a.settles n)) := by
  by_cases promoting : c.Promoting n a
  · exact iff_of_true (sound.bare_of_promoting promoting) (.inl promoting)
  · by_cases sets : a.sets n = true
    · simp only [sound.not_bare_of_sets sets, promoting, sets, true_or, not_true, and_false,
        or_self]
    · by_cases settles : a.settles n = true
      · have own : ¬ (c.access a).Bare n := by
          obtain ⟨f, made, rfl⟩ := Access.exists_of_settles settles
          exact (c.settles n f made).not_bare
        simp only [own, promoting, settles, or_true, not_true, and_false, or_self]
      · have same := sameAt_access (Bool.eq_false_iff.mpr sets) (Bool.eq_false_iff.mpr settles)
          promoting
        simp only [same.bare_iff, promoting, sets, settles, Bool.false_eq_true, or_self,
          not_false_eq_true, and_true, false_or]

/-- A staged factory was there before, or has been staged or put back just now. -/
theorem Sound.staged_access {c : Cache} (sound : c.Sound) {a : Access} {n : Name} {f : CallbackId}
    (h : (c.access a).provisional[n]? = some (.staged f)) :
    (a = .stage n (some f) ∧ c.find? n = none) ∨
      (c.provisional[n]? = some (.staged f) ∧ ¬ a.sets n) ∨
      (a = .settle n f none ∧ c.Bare n) := by
  by_cases sets : a.sets n = true
  · rcases sound.of_sets sets with ⟨g, rfl, unbound, staged⟩ | ⟨none, -⟩
    · cases staged.symm.trans h
      exact .inl ⟨rfl, unbound⟩
    · cases none.symm.trans h
  · right
    by_cases settles : a.settles n = true
    · obtain ⟨g, made, rfl⟩ := Access.exists_of_settles settles
      have settled := c.settles n g made
      rw [access] at h
      generalize c.settle n g made = s at settled h
      cases settled with
      | promoted _ _ =>
        rw [provisional_provide, if_pos rfl] at h
        cases h
      | back free known =>
        rw [provisional_provide, if_pos rfl] at h
        cases h
        exact .inr ⟨rfl, known, free⟩
      | _ => exact .inl ⟨h, sets⟩
    · left
      have idle : ¬ c.Promoting n a := fun promoting =>
        (sound.bare_of_promoting promoting).2 (.inr (by simp [h]))
      have same := sameAt_access (Bool.eq_false_iff.mpr sets) (Bool.eq_false_iff.mpr settles) idle
      exact ⟨same.provisional.symm.trans h, sets⟩

/-- An early reference stays until something is set for the name. -/
theorem early_access {c : Cache} {a : Access} {n : Name} {o : Object}
    (early : c.provisional[n]? = some (.early o)) (unset : ¬ a.sets n) :
    (c.access a).provisional[n]? = some (.early o) := by
  by_cases settles : a.settles n = true
  · obtain ⟨f, made, rfl⟩ := Access.exists_of_settles settles
    have settled := c.settles n f made
    rw [access]
    generalize c.settle n f made = s at settled ⊢
    cases settled with
    | promoted unfound _ => exact absurd early ((reference?_eq_none.mp unfound).2 o)
    | back free _ => exact absurd (.inr (by simp [early])) free
    | _ => exact early
  · have idle : ¬ c.Promoting n a := by
      rintro ⟨f, early', inCreation, -, promotes⟩
      cases early.symm.trans (lookup_eq_promote.mp promotes).2.2.2
    have same := sameAt_access (Bool.eq_false_iff.mpr unset) (Bool.eq_false_iff.mpr settles) idle
    exact same.provisional.trans early

end Cache

end Singletons
