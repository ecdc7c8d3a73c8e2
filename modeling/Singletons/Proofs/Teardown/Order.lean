import Singletons.Proofs.Teardown.Closure
/-!
# The order of releases

A dependent is released before what it depends on, unless the teardown of the dependent comes to the
latter on its way, from a name that depends on the former: by containment, or around a cycle.
-/

namespace Singletons

/-- On its way to the release of `d`, a teardown of `d` comes to `n`: from another dependent of `d`,
and not by way of `d`. -/
def Graph.Preempts (g : Graph) (d n : Name) : Prop :=
  ∃ e ∈ g.dependentsOf d, e ≠ d ∧ Relation.ReflTransGen (fun x y => g.Pulls x y ∧ y ≠ d) e n

theorem Graph.Preempts.pull {g : Graph} {d n m : Name} (h : g.Preempts d n) (pulls : g.Pulls n m)
    (other : m ≠ d) : g.Preempts d m := by
  obtain ⟨e, he, hne, path⟩ := h
  exact ⟨e, he, hne, path.tail ⟨pulls, other⟩⟩

/-- Every name is released after its dependents, but for those that it preempts. -/
def Registry.DependentsFirst (r : Registry) (released : List (Name × Handle)) : Prop :=
  ∀ n handle before, before ++ [(n, handle)] <+: released → ∀ d ∈ r.graph.dependentsOf n, d ≠ n →
    ¬ r.graph.Preempts d n → ∀ own, r.Bears d own → (d, own) ∈ before

theorem Registry.DependentsFirst.nil (r : Registry) : r.DependentsFirst [] := by
  intro n handle before hp
  simp at hp

namespace Agenda

/-- The name that an item is about. -/
def Item.name? : Item → Option Name
  | root n => some n
  | visit n => some n
  | release n _ => some n
  | inside n => some n
  | forget n => some n
  | finish => none

/-- What may stand before the release of `d`: a visit of `d`, or what its dependents bring about. -/
def Item.Ahead (g : Graph) (d : Name) (item : Item) : Prop :=
  item = .visit d ∨ ∃ n, item.name? = some n ∧ g.Preempts d n

/-- Before a name is released, its dependents are met. -/
def Covered (g : Graph) : (met : Name → Prop) → List Item → Prop
  | _, [] => True
  | met, .visit n :: items => Covered g (fun m => m = n ∨ met m) items
  | met, .release n _ :: items => (∀ d ∈ g.dependentsOf n, met d) ∧ Covered g met items
  | met, _ :: items => Covered g met items

variable {g : Graph} {p q : Name → Prop} {items : List Item}

theorem Covered.mono (h : Covered g p items) (le : ∀ m, p m → q m) : Covered g q items := by
  induction items generalizing p q with
  | nil => trivial
  | cons item items ih =>
    cases item with
    | visit n => exact ih h fun m hm => hm.imp id (le m)
    | release n handle => exact ⟨fun d hd => le d (h.1 d hd), ih h.2 le⟩
    | root n => exact ih h le
    | inside n => exact ih h le
    | forget n => exact ih h le
    | finish => exact ih h le

theorem Covered.visits (names : List Name) (h : Covered g (fun m => m ∈ names ∨ p m) items) :
    Covered g p (names.map .visit ++ items) := by
  induction names generalizing p with
  | nil => exact h.mono fun m hm => hm.resolve_left List.not_mem_nil
  | cons n names ih =>
    refine ih (h.mono fun m hm => ?_)
    rw [List.mem_cons] at hm
    tauto

theorem Covered.opening {r : Registry} {n : Name}
    (h : Covered g (fun m => m ∈ r.graph.dependentsOf n ∨ p m) items)
    (dependents : ∀ d ∈ g.dependentsOf n, d ∈ r.graph.dependentsOf n ∨ p d) :
    Covered g p (r.opening n ++ items) := by
  rw [Registry.opening, List.append_assoc]
  exact .visits _ ⟨dependents, h⟩

theorem mem_opening {r : Registry} {n : Name} {item : Item} (h : item ∈ r.opening n) :
    (∃ d ∈ r.graph.dependentsOf n, item = .visit d) ∨ item.name? = some n := by
  simp only [Registry.opening, List.mem_append, List.mem_map, List.mem_cons, List.not_mem_nil,
    or_false] at h
  rcases h with ⟨d, hd, rfl⟩ | rfl | rfl | rfl
  · exact .inl ⟨d, hd, rfl⟩
  · exact .inr rfl
  · exact .inr rfl
  · exact .inr rfl

/-- What stands ahead of a release keeps doing so with all that it brings about. -/
theorem Item.Ahead.pull {d n m : Name} (h : g.Preempts d n) (pulls : g.Pulls n m) :
    Ahead g d (.visit m) := by
  by_cases other : m = d
  · exact .inl (congrArg Item.visit other)
  · exact .inr ⟨m, rfl, h.pull pulls other⟩

/-- No item of these is out of place ahead of a later one. -/
abbrev Aligned (g : Graph) (items : List Item) : Prop :=
  items.Pairwise fun i j => ∀ n handle, j = .release n handle → i.Ahead g n

theorem aligned_visits (names : List Name) : Aligned g (names.map .visit) := by
  refine List.pairwise_iff_forall_sublist.mpr fun pair n handle same => ?_
  obtain ⟨m, -, visit⟩ := List.mem_map.mp (pair.subset (List.mem_cons_of_mem _ List.mem_cons_self))
  cases visit.trans same

theorem aligned_opening {r : Registry} {n : Name}
    (subset : ∀ d ∈ r.graph.dependentsOf n, d ∈ g.dependentsOf n) : Aligned g (r.opening n) := by
  refine List.pairwise_append.mpr ⟨aligned_visits _, ?_, ?_⟩
  · simp
  · rintro item hi _ hj m handle rfl
    obtain ⟨d, hd, rfl⟩ := List.mem_map.mp hi
    obtain rfl : m = n := by
      simp only [List.mem_cons, Item.release.injEq, reduceCtorEq, List.not_mem_nil, or_false] at hj
      exact hj.1
    by_cases own : d = m
    · exact .inl (congrArg Item.visit own)
    · exact .inr ⟨d, rfl, d, subset d hd, own, .refl⟩

end Agenda

namespace Dismantling

/-- A teardown of single names, begun at the registry `r`, that keeps to the order of releases. -/
structure Ordered (r : Registry) (d : Dismantling) : Prop where
  underway : Underway r d
  covered : Agenda.Covered r.graph (· ∈ d.visited) d.items
  aligned : Agenda.Aligned r.graph d.items
  first : r.DependentsFirst d.released

namespace Ordered

variable {r r' : Registry} {n : Name} {rest : List Agenda.Item} {visited : NameSet}
  {released : List (Name × Handle)}

theorem revisit (h : Ordered r ⟨r', .visit n :: rest, visited, released⟩) (seen : n ∈ visited) :
    Ordered r ⟨r', rest, visited, released⟩ := by
  have covered : Agenda.Covered r.graph (fun m => m = n ∨ m ∈ visited) rest := h.covered
  refine ⟨h.underway.revisit seen, covered.mono fun m hm => ?_, h.aligned.of_cons, h.first⟩
  rcases hm with rfl | hm
  · exact seen
  · exact hm

theorem visit (h : Ordered r ⟨r', .visit n :: rest, visited, released⟩) (fresh : n ∉ visited) :
    Ordered r ⟨r'.withdraw n, r'.opening n ++ rest, visited.insert n, released⟩ := by
  obtain ⟨before, aligned⟩ := List.pairwise_cons.mp h.aligned
  have covered : Agenda.Covered r.graph (fun m => m = n ∨ m ∈ visited) rest := h.covered
  refine ⟨h.underway.visit fresh, ?_, ?_, h.first⟩
  · refine .opening (covered.mono fun m hm => .inr ((visited.mem_insert n m).mpr hm)) fun d hd => ?_
    exact (h.underway.dependent_met fresh hd).imp id fun seen =>
      (visited.mem_insert n d).mpr (.inr seen)
  · refine List.pairwise_append.mpr ⟨Agenda.aligned_opening fun d => h.underway.dependents_subset,
      aligned, ?_⟩
    rintro item hi _ hj d handle rfl
    have due : (d, Stage.release) ∈ Agenda.dues ⟨.visit n :: rest, visited⟩ :=
      Agenda.release_due.mpr ⟨handle, List.mem_cons_of_mem _ hj⟩
    have seen : d ∈ visited := h.underway.orderly.visited d .release due
    -- The name that waits for its release is visited already, so it is not the one to be opened.
    have preempts : r.graph.Preempts d n := by
      rcases before _ hj d handle rfl with same | ⟨m, hm, preempts⟩
      · obtain rfl := Agenda.Item.visit.inj same
        exact absurd seen fresh
      · obtain rfl := Option.some.inj hm
        exact preempts
    rcases Agenda.mem_opening hi with ⟨m, hm, rfl⟩ | own
    · exact .pull preempts (.inl (h.underway.dependents_subset hm))
    · exact .inr ⟨n, own, preempts⟩

/-- A name whose turn it is to be released comes after its dependents. -/
theorem dependent_released {handle : Handle}
    (h : Ordered r ⟨r', .release n handle :: rest, visited, released⟩) {d : Name} {own : Handle}
    (hd : d ∈ r.graph.dependentsOf n) (other : d ≠ n) (clear : ¬ r.graph.Preempts d n)
    (bears : r.Bears d own) : (d, own) ∈ released := by
  obtain ⟨before, -⟩ := List.pairwise_cons.mp h.aligned
  refine (h.underway.released d own).mpr ⟨⟨h.covered.1 d hd, fun due => ?_⟩, bears⟩
  obtain ⟨held, hi⟩ := Agenda.release_due.mp due
  rcases List.mem_cons.mp hi with same | hi
  · exact other (Agenda.Item.release.inj same).1
  · -- Its own release is still ahead of it: then the name is reached on the way to that.
    rcases before _ hi d held rfl with same | ⟨m, hm, preempts⟩
    · cases same
    · obtain rfl := Option.some.inj hm
      exact clear preempts

theorem release {handle : Handle}
    (h : Ordered r ⟨r', .release n handle :: rest, visited, released⟩) :
    Ordered r ⟨r', rest, visited, released ++ handle.calls n⟩ := by
  refine ⟨h.underway.release, h.covered.2, h.aligned.of_cons, ?_⟩
  by_cases null : handle = .null
  · subst null
    rw [Handle.calls, List.append_nil]
    exact h.first
  · rw [Handle.calls_of_ne_null null]
    intro m called before hp d hd other clear own bears
    rcases List.prefix_concat_iff.mp hp with now | earlier
    · obtain ⟨rfl, same⟩ := List.append_inj' now rfl
      obtain ⟨rfl, rfl⟩ := Prod.mk.inj (List.singleton_inj.mp same)
      exact h.dependent_released hd other clear bears
    · exact h.first m called before earlier d hd other clear own bears

theorem empty (h : Ordered r ⟨r', .inside n :: rest, visited, released⟩) :
    Ordered r ⟨{ r' with graph := r'.graph.detachContained n },
      (r'.graph.containedIn n).map .visit ++ rest, visited, released⟩ := by
  obtain ⟨before, aligned⟩ := List.pairwise_cons.mp h.aligned
  have covered : Agenda.Covered r.graph (· ∈ visited) rest := h.covered
  refine ⟨h.underway.empty, .visits _ (covered.mono fun m hm => .inr hm),
    List.pairwise_append.mpr ⟨Agenda.aligned_visits _, aligned, ?_⟩, h.first⟩
  rintro item hi _ hj d handle rfl
  obtain ⟨m, hm, rfl⟩ := List.mem_map.mp hi
  rcases before _ hj d handle rfl with same | ⟨k, hk, preempts⟩
  · cases same
  · obtain rfl := Option.some.inj hk
    exact .pull preempts (.inr (h.underway.mem_containedIn.mp hm))

theorem forget (h : Ordered r ⟨r', .forget n :: rest, visited, released⟩) :
    Ordered r ⟨{ r' with graph := (r'.graph.scrub n).removeDependencies n }, rest, visited,
      released⟩ where
  underway := h.underway.forget
  covered := h.covered
  aligned := h.aligned.of_cons
  first := h.first

theorem step {d e : Dismantling} (h : Ordered r d) (hs : Step d e) : Ordered r e := by
  cases hs with
  | root => cases h.underway.orderly.isLocal _ List.mem_cons_self
  | revisit seen => exact h.revisit seen
  | visit fresh => exact h.visit fresh
  | release => exact h.release
  | inside => exact h.empty
  | forget => exact h.forget
  | finish => cases h.underway.orderly.isLocal _ List.mem_cons_self

theorem comes {d e : Dismantling} (h : Ordered r d) (hc : Comes d e) : Ordered r e := by
  induction hc with
  | refl => exact h
  | tail _ hs ih => exact ih.step hs

theorem start (r : Registry) (n : Name) : Ordered r ⟨r, [.visit n], ∅, []⟩ :=
  ⟨.start r n, trivial, List.pairwise_singleton _ _, .nil r⟩

end Ordered

end Dismantling

namespace Registry

variable {r r' : Registry} {gone : NameSet} {released : List (Name × Handle)}

namespace Torn

theorem nil (r : Registry) : r.Torn ∅ r [] where
  cleared := .refl r
  closed _ _ h := absurd h Std.ExtTreeSet.not_mem_empty
  mem_released _ _ := iff_of_false List.not_mem_nil fun h => Std.ExtTreeSet.not_mem_empty h.1
  once := List.nodup_nil

theorem bears (h : r.Torn gone r' released) {n : Name} {handle : Handle} :
    r'.Bears n handle ↔ n ∉ gone ∧ r.Bears n handle := by
  rw [Bears, Bears, h.cleared.handle?]
  split
  · simp [*]
  · simp [*]

theorem pulls (h : r.Torn gone r' released) {n m : Name} (hm : r'.graph.Pulls n m) :
    r.graph.Pulls n m :=
  hm.imp (fun hm => ((h.cleared.dependents n m).mp hm).2.2)
    fun hm => ((h.cleared.mem_containedIn n m).mp hm).2

theorem preempts (h : r.Torn gone r' released) {d n : Name} (hn : r'.graph.Preempts d n) :
    r.graph.Preempts d n := by
  obtain ⟨e, he, other, path⟩ := hn
  exact ⟨e, ((h.cleared.dependents d e).mp he).2.2, other,
    path.lift id fun _ _ step => ⟨h.pulls step.1, step.2⟩⟩

theorem trans {r'' : Registry} {gone' : NameSet} {released' : List (Name × Handle)}
    (h : r.Torn gone r' released) (k : r'.Torn gone' r'' released') :
    r.Torn (gone ∪ gone') r'' (released ++ released') where
  cleared := h.cleared.trans k.cleared
  closed n m hn pulls := by
    rw [Std.ExtTreeSet.mem_union_iff] at hn ⊢
    -- A part may be gone and filed with its container still, which makes no difference.
    by_cases here : n ∈ gone
    · exact .inl (h.closed n m here pulls)
    · by_cases there : m ∈ gone
      · exact .inl there
      · refine .inr (k.closed n m (hn.resolve_left here) ?_)
        exact pulls.imp (fun hm => (h.cleared.dependents n m).mpr ⟨here, there, hm⟩)
          fun hm => (h.cleared.mem_containedIn n m).mpr ⟨here, hm⟩
  mem_released n handle := by
    rw [List.mem_append, h.mem_released, k.mem_released, h.bears, Std.ExtTreeSet.mem_union_iff]
    tauto
  once := by
    rw [List.map_append, List.nodup_append]
    refine ⟨h.once, k.once, ?_⟩
    rintro n hn m hm rfl
    obtain ⟨⟨n, own⟩, first, rfl⟩ := List.mem_map.mp hn
    obtain ⟨⟨m, other⟩, second, rfl⟩ := List.mem_map.mp hm
    exact (h.bears.mp ((k.mem_released m other).mp second).2).1 ((h.mem_released m own).mp first).1

end Torn

/-- The order of releases survives that what is left is torn down afterwards. -/
theorem DependentsFirst.append {r'' : Registry} {gone' : NameSet}
    {released' : List (Name × Handle)} (first : r.DependentsFirst released)
    (h : r.Torn gone r' released) (later : r'.DependentsFirst released')
    (k : r'.Torn gone' r'' released') : r.DependentsFirst (released ++ released') := by
  intro n handle before hp d hd other clear own bears
  have early (hp : before ++ [(n, handle)] <+: released) : (d, own) ∈ before :=
    first n handle before hp d hd other clear own bears
  obtain ⟨rest, hr⟩ := hp
  rcases List.append_eq_append_iff.mp hr with ⟨more, hp, -⟩ | ⟨after, hp, hl⟩
  · exact early ⟨more, hp.symm⟩
  · rcases List.eq_nil_or_concat after with rfl | ⟨after, last, rfl⟩
    · rw [List.append_nil] at hp
      exact early (hp ▸ List.prefix_rfl)
    · rw [List.concat_eq_append, ← List.append_assoc] at hp
      obtain ⟨rfl, same⟩ := List.append_inj' hp rfl
      obtain rfl := List.singleton_inj.mp same
      rw [List.concat_eq_append] at hl
      have mem : (n, handle) ∈ released' := hl ▸ by simp
      have here : n ∉ gone := (h.bears.mp ((k.mem_released n handle).mp mem).2).1
      by_cases there : d ∈ gone
      · exact List.mem_append_left _ ((h.mem_released d own).mpr ⟨there, bears⟩)
      · refine List.mem_append_right _ (later n handle after ⟨rest, hl.symm⟩ d ?_ other ?_ own ?_)
        · exact (h.cleared.dependents n d).mpr ⟨here, there, hd⟩
        · exact fun preempts => clear (h.preempts preempts)
        · exact h.bears.mpr ⟨there, bears⟩

end Registry

namespace Dismantling

theorem exists_swept (r : Registry) (roots : List Name) (rest : List Agenda.Item)
    (visited : NameSet) (before : List (Name × Handle)) :
    ∃ gone r' visited' released, Comes ⟨r, roots.map .root ++ rest, visited, before⟩
        ⟨r', rest, visited', before ++ released⟩ ∧
      r.Torn gone r' released ∧ r.DependentsFirst released := by
  induction roots generalizing r visited before with
  | nil =>
    refine ⟨∅, r, visited, [], ?_, .nil r, .nil r⟩
    rw [List.append_nil]
    exact .refl
  | cons n roots ih =>
    obtain ⟨e, comes, done⟩ := exists_comes_done ⟨r, [.visit n], ∅, []⟩
    have torn := (torn_of_comes comes done).1
    have first := ((Ordered.start r n).comes comes).first
    obtain ⟨gone, r', visited', released, comes', torn', first'⟩ :=
      ih e.registry e.visited (before ++ e.released)
    have within := comes.within (roots.map .root ++ rest) before
    rw [done] at within
    simp only [List.append_nil, List.nil_append, List.cons_append] at within
    refine ⟨_, r', visited', e.released ++ released, ?_, torn.trans torn',
      first.append torn first' torn'⟩
    rw [← List.append_assoc]
    exact (within.head .root).trans comes'

theorem Step.prefix_released {d e : Dismantling} (h : Step d e) : d.released <+: e.released := by
  cases h with
  | release => exact List.prefix_append _ _
  | _ => exact List.prefix_rfl

theorem Comes.prefix_released {d e : Dismantling} (h : Comes d e) : d.released <+: e.released := by
  induction h with
  | refl => exact List.prefix_rfl
  | tail _ hs ih => exact ih.trans hs.prefix_released

/-- When its turn has come, a name that is torn down first has met everything that it preempts. -/
theorem Underway.past_of_preempts {r r' : Registry} {d n : Name} {handle : Handle}
    {visited : NameSet} {released : List (Name × Handle)}
    (h : Underway r ⟨r', [.release d handle, .inside d, .forget d], visited, released⟩)
    (preempts : r.graph.Preempts d n) :
    Agenda.Past ⟨[.release d handle, .inside d, .forget d], visited⟩ n .release := by
  have met {m : Name} (hm : Agenda.Meets ⟨[.release d handle, .inside d, .forget d], visited⟩ m) :
      m ∈ visited := hm.resolve_right (by simp)
  have past {m : Name} (s : Stage) (hm : m ∈ visited) (other : m ≠ d) :
      Agenda.Past ⟨[.release d handle, .inside d, .forget d], visited⟩ m s :=
    ⟨hm, by simp [Agenda.dues, Agenda.Item.due?, other]⟩
  have own : d ∈ visited := h.orderly.visited d .release List.mem_cons_self
  obtain ⟨e, he, other, path⟩ := preempts
  have reached : n ∈ visited ∧ n ≠ d := by
    induction path with
    | refl => exact ⟨met (h.dependents d own e he), other⟩
    | @tail x y _ step ih =>
      refine ⟨met ?_, step.2⟩
      rcases step.1 with hy | hy
      · exact h.dependents x ih.1 y hy
      · exact h.inside x (past .inside ih.1 ih.2) y hy
  exact past .release reached.1 reached.2

/-- A teardown that starts at a name releases first what the name preempts. -/
theorem exists_preempted {r : Registry} {d n : Name} {own handle : Handle} (hd : r.Bears d own)
    (hn : r.Bears n handle) (preempts : r.graph.Preempts d n) :
    ∃ e before, Comes ⟨r, [.root d], ∅, []⟩ e ∧ e.items = [] ∧ (d, own) ∈ e.released ∧
      before ++ [(n, handle)] <+: e.released ∧ (d, own) ∉ before := by
  let visited : NameSet := (∅ : NameSet).insert d
  let last : List Agenda.Item := [.release d own, .inside d, .forget d]
  have held : (r.disposables.handle? d).getD .null = own := by rw [hd.1, Option.getD_some]
  have opened : Step ⟨r, [.visit d], ∅, []⟩
      ⟨r.withdraw d, (r.graph.dependentsOf d).map .visit ++ last, visited, []⟩ := by
    have visit : Step ⟨r, [.visit d], ∅, []⟩ _ := .visit Std.ExtTreeSet.not_mem_empty
    rwa [List.append_nil, Registry.opening, held] at visit
  obtain ⟨m, comes, done⟩ := exists_comes_done
    ⟨r.withdraw d, (r.graph.dependentsOf d).map .visit, visited, []⟩
  have turn := comes.within last []
  rw [done, List.nil_append, List.nil_append] at turn
  -- At this point the release of `d` comes next, and all its dependents are through.
  have underway := ((Underway.start r d).step opened).comes turn
  have early : (n, handle) ∈ m.released :=
    (underway.released n handle).mpr ⟨underway.past_of_preempts preempts, hn⟩
  have late : (d, own) ∉ m.released := fun h =>
    Agenda.not_past_cons rfl ((underway.released d own).mp h).1
  obtain ⟨before, after, split⟩ := List.append_of_mem early
  obtain ⟨e, ends, done⟩ := exists_comes_done ⟨m.registry, last, m.visited, m.released⟩
  have whole := (turn.trans ends).head opened
  obtain ⟨torn, closure⟩ := torn_of_comes whole done
  refine ⟨e, before, whole.head .root, done,
    (torn.mem_released d own).mpr ⟨(closure d).mpr .refl, hd⟩, ?_, fun h => late ?_⟩
  · refine List.IsPrefix.trans ⟨after, ?_⟩ ends.prefix_released
    rw [List.append_assoc, List.singleton_append]
    exact split.symm
  · exact split ▸ List.mem_append_left _ h

end Dismantling

end Singletons
