import Mathlib.Data.Finset.Card
import Singletons.Proofs.Circular.Growth
/-!
# Resolution of circular references

A fresh registry that is asked for one name of a blueprint makes every name that can be reached from
it, and every factory on the way is given the object of each name that it asks for.
-/

namespace Singletons.Blueprint

open Session

variable {b : Blueprint} {env : Environment} {w : World}

private theorem lookup_listed {r : Registry} (h : b.Holds r) {d : Name}
    (listed : d ∈ r.cache.registered) :
    r.request (.lookup d true) = r.answer (.object (some (b.object d))) ∨
      r.flags.isInCreation d = true ∧ r.cache.find? d = none ∧ r.request (.lookup d true) =
        { registry := { r with cache := r.cache.unstage d }
          progress := .calling (b.early d) (.promoting d (b.early d)) } := by
  cases h.phase d with
  | untouched unlisted => exact absurd listed unlisted
  | underway _ running unbound provided =>
    rcases provided with staged | early
    · refine .inr ⟨running, unbound, ?_⟩
      simp [Registry.request, Registry.lookup, Cache.lookup, unbound, running, staged]
    · refine .inl ?_
      simp [Registry.request, Registry.lookup, Cache.lookup, unbound, running, early]
  | made _ _ bound =>
    refine .inl ?_
    simp [Registry.request, Registry.lookup, Cache.lookup, bound]

private theorem madeEarly_staged {r : Registry} {d : Name} (listed : d ∈ r.cache.registered)
    (unbound : r.cache.find? d = none) :
    ∃ notes, Registry.madeEarly { r with cache := r.cache.unstage d } d (b.early d)
        (.ok (b.made d)) =
      { registry := b.promoted r d
        progress := .answered (.ok (.object (some (b.object d)))), notes } := by
  have free : (r.cache.unstage d).find? d = none := unbound
  have nothing : (r.cache.unstage d).provisional[d]? = none :=
    (NameMap.getElem?_erase _ _ _).trans (if_pos rfl)
  have present : (r.cache.unstage d).isRegistered d = true := List.contains_iff_mem.mpr listed
  simp only [Registry.madeEarly, made, Returned.asObject, Returned.asOutcome, Outcome.object?,
    Cache.settle, free, nothing, present, if_true]
  exact ⟨_, rfl⟩

/-- A lookup gives the object of every name whose factory has been called. -/
private theorem performs_look (hr : b.Realized env) (h : b.Holds w.registry) (d : Name) :
    ∃ w' report, Performs env w (look d) w'
        (.ok (.object (if d ∈ w.registry.cache.registered then some (b.object d) else none)))
        report ∧
      report.object? = (if d ∈ w.registry.cache.registered then some (b.object d) else none) ∧
      b.Holds w'.registry ∧ w'.registry.cache.registered = w.registry.cache.registered ∧
      b.Grows [] w.registry w'.registry [report] := by
  have still : ∀ (w' : World) reply ds, w'.registry = w.registry →
      b.Holds w'.registry ∧ w'.registry.cache.registered = w.registry.cache.registered ∧
        b.Grows [] w.registry w'.registry [.operation reply [] ds] := by
    intro w' reply ds same
    rw [same]
    exact ⟨h, rfl, .still (fun _ => rfl) rfl (fun _ => rfl)⟩
  by_cases listed : d ∈ w.registry.cache.registered
  · rw [if_pos listed]
    rcases lookup_listed h listed with answer | ⟨running, unbound, calling⟩
    · obtain ⟨w', ds, performs, same⟩ := performs_answer env answer
      exact ⟨w', _, performs, rfl, still w' _ ds same⟩
    · obtain ⟨notes, settled⟩ := madeEarly_staged (b := b) listed unbound
      obtain ⟨w', k, steps, ds, performs, rfl, after⟩ :=
        performs_callback env (.ok (b.made d))
          (fun r' steps => steps = [] ∧ r' = b.promoted w.registry d) calling
          fun w₁ k entered => ⟨w₁, [], _, notes, by rw [hr.early]; exact .finish _ _, by
              rw [entered]; exact settled, rfl, rfl⟩
      refine ⟨w', _, performs, rfl, ?_⟩
      rw [after]
      refine ⟨h.promoted running, rfl, .still (fun _ => rfl) rfl fun n => ?_⟩
      simp [Report.callsOfAll, Report.callsOf, hr.early_ne]
  · rw [if_neg listed]
    obtain ⟨idle, unbound, -⟩ := h.untouched_of_unlisted listed
    have answer : w.registry.request (.lookup d true) = w.registry.answer (.object none) := by
      simp [Registry.request, Registry.lookup, Cache.lookup, unbound, idle]
    obtain ⟨w', ds, performs, same⟩ := performs_answer env answer
    exact ⟨w', _, performs, rfl, still w' _ ds same⟩

private theorem performs_again (env : Environment) (h : b.Holds w.registry) {d : Name}
    (listed : d ∈ w.registry.cache.registered) :
    ∃ w' answer ds, Performs env w (b.create d) w' (.ok answer) (.operation (.ok answer) [] ds) ∧
      w'.registry = w.registry ∧ ∀ o, answer.object? = some o → o = b.object d := by
  cases h.phase d with
  | untouched unlisted => exact absurd listed unlisted
  | underway _ running unbound =>
    obtain ⟨notes, refused⟩ := Registry.getOrCreate_underway (b.factory d) unbound h.standing
      (h.mark_refused running)
    have request : w.registry.request (.getOrCreate d (some (b.factory d))) = _ := refused
    obtain ⟨w', ds, performs, same⟩ := performs_answer env request
    exact ⟨w', _, ds, performs, same, fun o ho => by cases ho⟩
  | made _ _ bound =>
    have request : w.registry.request (.getOrCreate d (some (b.factory d))) =
        w.registry.answer (.creation (.done (b.object d))) := by
      simp only [Registry.request, Registry.getOrCreate, bound]
    obtain ⟨w', ds, performs, same⟩ := performs_answer env request
    exact ⟨w', _, ds, performs, same, fun o ho => (Option.some.inj ho).symm⟩

/-- The creation of a name succeeds and makes what it comes to. -/
def Creates (b : Blueprint) (env : Environment) (w : World) (n : Name) : Prop :=
  ∃ w' calls ds,
    Performs env w (b.create n) w' (.ok (.creation (.done (b.object n))))
      (.operation (.ok (.creation (.done (b.object n)))) calls ds) ∧
    b.Holds w'.registry ∧ n ∈ w'.registry.cache.registered ∧
    b.Grows [n] w.registry w'.registry
      [.operation (.ok (.creation (.done (b.object n)))) calls ds]

private theorem performs_requests (hr : b.Realized env) (h : b.Holds w.registry) (d : Name)
    (creates : ∀ w₁ : World, b.Holds w₁.registry →
      w₁.registry.cache.registered = w.registry.cache.registered →
      d ∉ w₁.registry.cache.registered → b.Creates env w₁ d) :
    ∃ w₁ w₂ seen given answers, Performs env w (look d) w₁ (.ok seen) answers.1 ∧
      Performs env w₁ (b.create d) w₂ (.ok given) answers.2 ∧ b.Holds w₂.registry ∧
      d ∈ w₂.registry.cache.registered ∧
      b.Grows [d] w.registry w₂.registry [answers.1, answers.2] ∧ b.Resolves d answers := by
  obtain ⟨w₁, seen, performs, object, held, same, grows⟩ := performs_look hr h d
  by_cases listed : d ∈ w.registry.cache.registered
  · rw [if_pos listed] at object
    obtain ⟨w₂, answer, ds, again, unchanged, own⟩ := performs_again env held (same ▸ listed)
    have idle : b.Grows [d] w₁.registry w₂.registry [.operation (.ok answer) [] ds] := by
      rw [unchanged]
      exact .still (fun _ => rfl) rfl fun _ => rfl
    refine ⟨w₁, w₂, _, answer, (seen, .operation (.ok answer) [] ds), performs, again, ?_, ?_,
      grows.append idle, .inl ?_, ?_⟩
    · rw [unchanged]
      exact held
    · rw [unchanged, same]
      exact listed
    · exact Option.isSome_iff_exists.mpr ⟨_, object⟩
    · rintro o (ho | ho)
      · exact (Option.some.inj (object.symm.trans ho)).symm
      · exact own o ho
  · rw [if_neg listed] at object
    obtain ⟨w₂, calls, ds, created, after, present, made⟩ :=
      creates w₁ held same (same ▸ listed)
    refine ⟨w₁, w₂, _, _, (seen, _), performs, created, after, present, grows.append made,
      .inr rfl, ?_⟩
    rintro o (ho | ho)
    · cases object.symm.trans ho
    · exact (Option.some.inj ho).symm

private theorem runs_requests (hr : b.Realized env) (value : Returned) (ds : List Name)
    (answers : List Answer) (h : b.Holds w.registry)
    (creates : ∀ (w₁ : World) (d : Name), b.Holds w₁.registry →
      (∀ m ∈ w.registry.cache.registered, m ∈ w₁.registry.cache.registered) → d ∈ ds →
      d ∉ w₁.registry.cache.registered → b.Creates env w₁ d) :
    ∃ w' pairs, Runs env w (Step.sequence (.returns value) answers (ds.flatMap b.requests)) w'
        (.ok value) (flat pairs) ∧
      b.Holds w'.registry ∧ (∀ d ∈ ds, d ∈ w'.registry.cache.registered) ∧
      b.Grows ds w.registry w'.registry (flat pairs) ∧ List.Forall₂ b.Resolves ds pairs := by
  -- What the names before come to stays listed, so that each is created at most once.
  induction ds generalizing w answers with
  | nil =>
    refine ⟨w, [], .finish w _, h, fun d hd => (by cases hd), ?_, .nil⟩
    exact .still (fun _ => rfl) rfl fun _ => rfl
  | cons d ds ih =>
    obtain ⟨w₁, w₂, seen, given, pair, first, second, held, present, grows, resolves⟩ :=
      performs_requests hr h d fun w₁ held same unlisted =>
        creates w₁ d held (fun m hm => by rwa [same]) List.mem_cons_self unlisted
    obtain ⟨w', pairs, runs, after, needed, rest, resolved⟩ :=
      ih (answers ++ [seen] ++ [given]) held fun w₃ e held₃ kept he unlisted =>
        creates w₃ e held₃ (fun m hm => kept m (grows.kept m hm)) (List.mem_cons_of_mem d he)
          unlisted
    refine ⟨w', pair :: pairs, .sequence first (.sequence second runs), after, ?_,
      grows.append rest, .cons resolves resolved⟩
    intro e he
    rcases List.mem_cons.mp he with rfl | he
    · exact rest.kept e present
    · exact needed e he

/-- The factory of an untouched name resolves all that it needs, if that can be created. -/
private theorem runs_script (hr : b.Realized env) {r : Registry} (h : b.Holds r) {n : Name}
    (unlisted : n ∉ r.cache.registered) (suppressed : Option (List Fault))
    (entered : w.registry = { r with flags := (r.flags.mark n).2, suppressed })
    (creates : ∀ (w₁ : World) (d : Name), b.Holds w₁.registry →
      (∀ m ∈ (b.begun r n suppressed).cache.registered, m ∈ w₁.registry.cache.registered) →
      d ∈ b.deps n → d ∉ w₁.registry.cache.registered → b.Creates env w₁ d) :
    ∃ w' ds pairs, Runs env w (b.script n).program w' (.ok (b.made n))
        (.operation (.ok (.status (.done ()))) [] ds :: flat pairs) ∧
      b.Holds w'.registry ∧ (∀ d ∈ b.deps n, d ∈ w'.registry.cache.registered) ∧
      b.Grows (b.deps n) (b.begun r n suppressed) w'.registry (flat pairs) ∧
      List.Forall₂ b.Resolves (b.deps n) pairs := by
  obtain ⟨-, unbound, -⟩ := h.untouched_of_unlisted unlisted
  have free : (r.cache.find? n).isSome = false := by rw [unbound]; rfl
  have staging : w.registry.request (.stage n (some (b.early n))) =
      (b.begun r n suppressed).answer (.status (.done ())) := by
    rw [entered]
    simp only [Registry.request, Registry.stage, free, Bool.false_eq_true, if_false]
    rfl
  obtain ⟨w₁, ds, staged, second⟩ := performs_answer env staging
  obtain ⟨w', pairs, runs, held, needed, grows, resolved⟩ :=
    runs_requests hr (b.made n) (b.deps n) [.status (.done ())]
      (second ▸ h.begun unlisted suppressed) (second ▸ creates)
  rw [second] at grows
  exact ⟨w', ds, pairs, .sequence staged runs, held, needed, grows, resolved⟩

private theorem created_made (r : Registry) (n : Name) (outermost : Bool) :
    ∃ notes, r.resume (.ok (b.made n)) (.creating n outermost false) =
      { registry := b.ended r n (if outermost then none else r.suppressed)
        progress := .answered (.ok (.creation (.done (b.object n)))), notes } :=
  ⟨_, rfl⟩

/-- A name can be created if all that its factory needs can be created meanwhile. -/
private theorem creates_of_deps (hr : b.Realized env) (h : b.Holds w.registry) {n : Name}
    (unlisted : n ∉ w.registry.cache.registered)
    (creates : ∀ (w₁ : World) (d : Name), b.Holds w₁.registry →
      (∀ m ∈ w.registry.cache.registered ++ [n], m ∈ w₁.registry.cache.registered) →
      d ∈ b.deps n → d ∉ w₁.registry.cache.registered → b.Creates env w₁ d) :
    b.Creates env w n := by
  let r := w.registry
  let suppressed := some (r.suppressed.getD [])
  obtain ⟨idle, unbound, -⟩ := h.untouched_of_unlisted unlisted
  obtain ⟨notes, calling⟩ := Registry.getOrCreate_calling (b.factory n) unbound h.standing
    (h.mark_allowed idle)
  have request : r.request (.getOrCreate n (some (b.factory n))) = _ := calling
  have listed := registered_begun (b := b) unlisted suppressed
  -- The name is listed while its factory runs, but is in creation no longer when it has ended.
  let result : Registry → List Report → Prop := fun r' steps =>
    b.Holds r' ∧ n ∈ r'.cache.registered ∧ ∀ k ds, b.Grows [n] r r'
      [.operation (.ok (.creation (.done (b.object n)))) [.call (b.factory n) k steps] ds]
  have body : ∀ (w₁ : World) (k : Nat),
      w₁.registry = { r with flags := (r.flags.mark n).2, suppressed } →
      ∃ w₂ steps r' notes', Runs env w₁ (env.body (b.factory n) k) w₂ (.ok (b.made n)) steps ∧
        w₂.registry.resume (.ok (b.made n)) (.creating n r.suppressed.isNone false) =
          { registry := r'
            progress := .answered (.ok (.creation (.done (b.object n)))), notes := notes' } ∧
        result r' steps := by
    intro w₁ k entered
    obtain ⟨w₂, ds, pairs, runs, held, needed, grows, resolved⟩ :=
      runs_script hr h unlisted suppressed entered (listed ▸ creates)
    obtain ⟨notes', resumed⟩ := created_made (b := b) w₂.registry n r.suppressed.isNone
    have running : w₂.registry.flags.isInCreation n = true := by
      rw [grows.running, h.isInCreation_begun]
      simp
    have present := held.listed_of_running running
    have same := registered_ended (b := b) present
      (if r.suppressed.isNone then none else w₂.registry.suppressed)
    refine ⟨w₂, _, _, notes', by rw [hr.factory]; exact runs, resumed, held.ended running _, ?_,
      fun k ds => .creation hr unlisted (fun m => ?_) grows needed same (fun m => ?_)
        (fun m => rfl) ⟨_, pairs, rfl, resolved⟩ _ k ds⟩
    · rw [same]
      exact present
    · rw [listed, List.mem_append, List.mem_singleton]
    · rw [held.isInCreation_ended, grows.running, h.isInCreation_begun]
      by_cases hm : m = n
      · subst m
        simp [idle]
      · simp [hm]
  obtain ⟨w', k, steps, ds, performs, held, present, grows⟩ :=
    performs_callback env (.ok (b.made n)) result request body
  exact ⟨w', _, ds, performs, held, present, grows k ds⟩

private def unlisted (all : Finset Name) (r : Registry) : Finset Name :=
  all.filter (· ∉ r.cache.registered)

private theorem unlisted_card_lt {all : Finset Name} {r r' : Registry} {n : Name}
    (kept : ∀ m ∈ r.cache.registered, m ∈ r'.cache.registered) (member : n ∈ all)
    (fresh : n ∉ r.cache.registered) (listed : n ∈ r'.cache.registered) :
    (unlisted all r').card < (unlisted all r).card := by
  have subset : unlisted all r' ⊆ unlisted all r := by
    intro m hm
    obtain ⟨hall, gone⟩ := Finset.mem_filter.mp hm
    exact Finset.mem_filter.mpr ⟨hall, fun old => gone (kept m old)⟩
  apply Finset.card_lt_card
  apply (Finset.ssubset_iff_of_subset subset).mpr
  refine ⟨n, Finset.mem_filter.mpr ⟨member, fresh⟩, fun hn => ?_⟩
  exact (Finset.mem_filter.mp hn).2 listed

/-- Every factory is called at most once, so that creations end. -/
private theorem creates_of_card_le (hr : b.Realized env) (all : Finset Name)
    (closed : ∀ n, ∀ d ∈ b.deps n, d ∈ all) (bound : Nat) {n : Name} (h : b.Holds w.registry)
    (fresh : n ∉ w.registry.cache.registered) (member : n ∈ all)
    (few : (unlisted all w.registry).card ≤ bound) : b.Creates env w n := by
  -- A factory lists its own name before it asks for others: fewer are left for those.
  induction bound generalizing w n with
  | zero =>
    have empty := Finset.card_eq_zero.mp (Nat.le_zero.mp few)
    have left : n ∈ unlisted all w.registry := Finset.mem_filter.mpr ⟨member, fresh⟩
    rw [empty] at left
    exact absurd left (Finset.notMem_empty n)
  | succ bound ih =>
    apply creates_of_deps hr h fresh
    intro w₁ d held kept hd fresh'
    have fewer : (unlisted all w₁.registry).card < (unlisted all w.registry).card :=
      unlisted_card_lt (fun m hm => kept m (List.mem_append_left _ hm)) member fresh
        (kept n (List.mem_append_right _ List.mem_cons_self))
    exact ih held fresh' (closed n d hd) (by omega)

def needed (b : Blueprint) : List Name := b.needs.toList.flatMap (·.2)

theorem mem_needed {n d : Name} (h : d ∈ b.deps n) : d ∈ b.needed := by
  rw [deps, Std.ExtTreeMap.getD_eq_getD_getElem?] at h
  cases hn : b.needs[n]? with
  | none => simp [hn] at h
  | some ds =>
    rw [hn] at h
    exact List.mem_flatMap.mpr
      ⟨(n, ds), Std.ExtTreeMap.mem_toList_iff_getElem?_eq_some.mpr hn, h⟩

/-- What the creation of a name on a fresh registry comes to. -/
structure Resolved (b : Blueprint) (root : Name) (report : Report) (r : Registry) : Prop where
  delivered : ∃ calls ds, report = .operation (.ok (.creation (.done (b.object root)))) calls ds
  bound : ∀ n, b.Reachable root n → r.cache.find? n = some (b.object n)
  served : ∀ n, b.Reachable root n →
    ∃ steps, report.callsOf (b.factory n) = [steps] ∧ b.Served n steps
  listed : ∀ n, n ∈ r.cache.registered ↔ b.Reachable root n
  once : r.cache.registered.Nodup
  settled : ∀ n, r.flags.isInCreation n = false ∧ r.cache.provisional[n]? = none

/-- Whatever the names need of one another, the creation of any of them on a fresh registry ends and
resolves everything that can be reached from it. -/
theorem creation_resolves_circular (b : Blueprint) {env : Environment} (hr : b.Realized env)
    (w : World) {config : Config} {canonical : Name → Name}
    (fresh : w.registry = .ofConfig config canonical) (included : config.exclusions = [])
    (root : Name) : ∃ fuel report w', w.runStep env fuel (.perform (b.create root)) =
        some (report, w') ∧ b.Resolved root report w'.registry := by
  have empty : w.registry.cache.registered = [] := by rw [fresh]; rfl
  have untouched : ∀ n, n ∉ w.registry.cache.registered := fun n => by simp [empty]
  have start : b.Holds w.registry := fresh ▸ .ofConfig included canonical
  obtain ⟨w', calls, ds, performs, held, present, grows⟩ :=
    creates_of_card_le hr (root :: b.needed).toFinset
      (fun n d hd => List.mem_toFinset.mpr (List.mem_cons_of_mem _ (mem_needed hd))) _ start
      (untouched root) (List.mem_toFinset.mpr List.mem_cons_self) (Nat.le_refl _)
  have idle : ∀ n, w'.registry.flags.isInCreation n = false := fun n =>
    (grows.running n).trans (start.untouched_of_unlisted (untouched n)).1
  have listed : ∀ n, n ∈ w'.registry.cache.registered ↔ b.Reachable root n := by
    intro n
    constructor
    · intro hn
      rcases grows.reached n hn with old | ⟨d, hd, reach⟩
      · exact absurd old (untouched n)
      · rwa [List.mem_singleton.mp hd] at reach
    · intro reach
      induction reach with
      | refl => exact present
      | tail _ hd ih => exact grows.closed _ ih (untouched _) _ hd
  obtain ⟨fuel, run⟩ := runStep_of_performs performs
  refine ⟨fuel, _, w', run, ⟨calls, ds, rfl⟩, fun n reach => ?_, fun n reach => ?_, listed,
    held.once, fun n => ⟨idle n, ?_⟩⟩
  · exact (held.made_of_idle ((listed n).mpr reach) (idle n)).1
  · obtain ⟨steps, called, served⟩ := grows.served n ((listed n).mpr reach) (untouched n)
    exact ⟨steps, by simpa [Report.callsOfAll] using called, served⟩
  · by_cases hn : n ∈ w'.registry.cache.registered
    · exact (held.made_of_idle hn (idle n)).2
    · exact (held.untouched_of_unlisted hn).2.2

/-- Two names that need each other, one of them itself as well. -/
theorem creation_resolves_cycle : ∃ (b : Blueprint) (env : Environment) (w : World),
    b.Realized env ∧ w.registry = .ofConfig {} id ∧ b.deps "a" = ["a", "b"] ∧
      b.deps "b" = ["a"] ∧ ∃ fuel report w',
        w.runStep env fuel (.perform (b.create "a")) = some (report, w') ∧
        b.Resolved "a" report w'.registry := by
  let b := lettered (.ofList [("a", ["a", "b"]), ("b", ["a"])]) id
  have hr : b.Realized b.callbacks := realized_lettered _ _
  let w : World := { registry := .ofConfig {} id }
  refine ⟨b, b.callbacks, w, hr, rfl, ?_, ?_, b.creation_resolves_circular hr w rfl rfl "a"⟩
  · decide +kernel
  · decide +kernel

end Singletons.Blueprint
