import Singletons.Proofs.Logging.History
/-!
# Which messages pass

A threshold is set for all tags, or for the one logger that a tag has. The latest setting that
still counts decides which messages pass, whether the logger that they meet was registered, made
by an earlier message, or made anew since the router was last stopped.
-/

namespace Singletons.Logging

namespace History

/-- Between the operations before and after it, one of the operations sets the threshold of a tag:
it sets that of all tags, or that of the logger which the tag has and still keeps, or makes the
router with the threshold that holds to begin with. -/
def Counts (tag : String) (before : History) (op : RouterRequest) (later : History)
    (s : Severity) : Prop :=
  op = .setThreshold globalTag s ∨
    (op = .setThreshold tag s ∧ before.HasLogger tag ∧ ∀ o ∈ later, ¬ o.clears) ∨
    (op = .new ∧ s = .info)

/-- The threshold that the latest operation which counts for a tag has set, or the one that holds
to begin with. -/
def HasThreshold (ops : History) (tag : String) (s : Severity) : Prop :=
  (∃ before op later, ops = before ++ op :: later ∧ Counts tag before op later s ∧
      ∀ before' op' later' s', ops = before' ++ op' :: later' → Counts tag before' op' later' s' →
        before'.length ≤ before.length) ∨
    (s = .info ∧ ∀ before op later s', ops = before ++ op :: later →
      ¬ Counts tag before op later s')

/-- Messages of a severity under a tag pass: the router runs, the tag is not silenced, and the
severity is not below the threshold of the tag. -/
def Passes (ops : History) (tag : String) (severity : Severity) : Prop :=
  ops.Runs ∧ ¬ ops.Silences tag ∧ ∃ s, ops.HasThreshold tag s ∧ s.rank ≤ severity.rank

theorem Counts.unique {tag : String} {before later : History} {op : RouterRequest}
    {s s' : Severity} (counts : Counts tag before op later s)
    (counts' : Counts tag before op later s') : s = s' := by
  rcases counts with rfl | ⟨rfl, -, -⟩ | ⟨rfl, rfl⟩ <;>
    rcases counts' with same | ⟨same, -, -⟩ | ⟨same, rfl⟩ <;> cases same <;> rfl

theorem HasThreshold.unique {ops : History} {tag : String} {s s' : Severity}
    (has : ops.HasThreshold tag s) (has' : ops.HasThreshold tag s') : s = s' := by
  rcases has with ⟨before, op, later, same, counts, latest⟩ | ⟨rfl, none⟩ <;>
    rcases has' with ⟨before', op', later', same', counts', latest'⟩ | ⟨rfl, none'⟩
  · have long : before.length = before'.length :=
      le_antisymm (latest' _ _ _ _ same counts) (latest _ _ _ _ same' counts')
    obtain ⟨rfl, rest⟩ := List.append_inj (same.symm.trans same') long
    obtain ⟨rfl, rfl⟩ := List.cons.inj rest
    exact counts.unique counts'
  · exact absurd counts (none' _ _ _ _ same)
  · exact absurd counts' (none _ _ _ _ same')
  · rfl

/-- For the global tag a setting counts whether or not there is a logger. -/
theorem counts_globalTag {before later : History} {op : RouterRequest} {s : Severity} :
    Counts globalTag before op later s ↔
      op = .setThreshold globalTag s ∨ (op = .new ∧ s = .info) := by
  constructor
  · rintro (set | ⟨set, -, -⟩ | made)
    · exact .inl set
    · exact .inl set
    · exact .inr made
  · rintro (set | made)
    · exact .inl set
    · exact .inr (.inr made)

section Concat

variable {ops before rest : History} {op o : RouterRequest} {tag : String} {s : Severity}

theorem counts_concat_of_not_clears (kept : ¬ op.clears) :
    Counts tag before o (rest ++ [op]) s ↔ Counts tag before o rest s := by
  have all : (∀ p ∈ rest ++ [op], ¬ p.clears) ↔ ∀ p ∈ rest, ¬ p.clears := by
    rw [List.forall_mem_append, List.forall_mem_singleton]
    exact and_iff_left kept
  rw [Counts, all, Counts]

/-- What was set for the logger of a tag is lost with the logger. -/
theorem counts_concat_of_clears (lost : op.clears) :
    Counts tag before o (rest ++ [op]) s ↔ Counts globalTag before o rest s := by
  have some : ¬ ∀ p ∈ rest ++ [op], ¬ p.clears := by simp [lost]
  rw [counts_globalTag, Counts]
  simp only [some, and_false, false_or]

theorem hasThreshold_concat_of_counts (counts : Counts tag ops op [] s) :
    HasThreshold (ops ++ [op]) tag s := by
  refine .inl ⟨ops, op, [], rfl, counts, fun before' op' later' s' same _ => ?_⟩
  rcases concat_eq_iff.mp same with ⟨rfl, -, -⟩ | ⟨rest, -, rfl⟩
  · exact le_rfl
  · simp

/-- An operation that sets nothing leaves the threshold what it was, for those tags for which the
same earlier operations count. -/
theorem hasThreshold_concat_of_not_counts {t : String} (idle : ∀ s, ¬ Counts tag ops op [] s)
    (agree : ∀ before o rest s, Counts tag before o (rest ++ [op]) s ↔ Counts t before o rest s)
    (had : ops.HasThreshold t s) : HasThreshold (ops ++ [op]) tag s := by
  -- a place that counts in the longer history is one of those before the last operation
  have earlier {before later : History} {o : RouterRequest} {s' : Severity}
      (same : ops ++ [op] = before ++ o :: later) (counts : Counts tag before o later s') :
      ∃ rest, ops = before ++ o :: rest ∧ Counts t before o rest s' := by
    rcases concat_eq_iff.mp same with ⟨rfl, rfl, rfl⟩ | ⟨rest, rfl, rfl⟩
    · exact absurd counts (idle s')
    · exact ⟨rest, rfl, (agree ..).mp counts⟩
  rcases had with ⟨before, o, rest, rfl, counts, latest⟩ | ⟨rfl, none⟩
  · refine .inl ⟨before, o, rest ++ [op], by simp, (agree ..).mpr counts, ?_⟩
    intro before' op' later' s' same counts'
    obtain ⟨rest', same', counts'⟩ := earlier same counts'
    exact latest _ _ _ _ same' counts'
  · refine .inr ⟨rfl, fun before o later s' same counts => ?_⟩
    obtain ⟨rest, same', counts'⟩ := earlier same counts
    exact none _ _ _ _ same' counts'

end Concat

theorem hasThreshold_nil (tag : String) : HasThreshold [] tag .info :=
  .inr ⟨rfl, fun before op later s same => by simp at same⟩

section Step

variable {ops : History} {op : RouterRequest} {t tag : String} {s s' : Severity}

/-- An operation that sets no threshold and drops no logger changes no threshold. -/
theorem HasThreshold.keeps (had : ops.HasThreshold tag s) (kept : ¬ op.clears)
    (idle : ∀ t s, op ≠ .setThreshold t s) : HasThreshold (ops ++ [op]) tag s := by
  refine hasThreshold_concat_of_not_counts ?_ (fun _ _ _ _ => counts_concat_of_not_clears kept) had
  rintro s' (rfl | ⟨rfl, -, -⟩ | ⟨rfl, -⟩)
  · exact idle _ _ rfl
  · exact idle _ _ rfl
  · exact kept rfl

/-- A threshold is set for all tags, or for a logger that is there. -/
theorem hasThreshold_set (counts : t = globalTag ∨ (t = tag ∧ ops.HasLogger tag)) :
    HasThreshold (ops ++ [.setThreshold t s]) tag s := by
  refine hasThreshold_concat_of_counts ?_
  rcases counts with rfl | ⟨rfl, has⟩
  · exact .inl rfl
  · exact .inr (.inl ⟨rfl, has, List.forall_mem_nil _⟩)

/-- A threshold that is set for another tag, or for a logger that is not there, changes none. -/
theorem HasThreshold.set (had : ops.HasThreshold tag s)
    (idle : ¬ (t = globalTag ∨ (t = tag ∧ ops.HasLogger tag))) :
    HasThreshold (ops ++ [.setThreshold t s']) tag s := by
  refine hasThreshold_concat_of_not_counts ?_
    (fun _ _ _ _ => counts_concat_of_not_clears Bool.false_ne_true) had
  rintro s (set | ⟨set, has, -⟩ | ⟨made, -⟩)
  · exact idle (.inl (RouterRequest.setThreshold.inj set).1)
  · exact idle (.inr ⟨(RouterRequest.setThreshold.inj set).1, has⟩)
  · cases made

/-- When the router is stopped, every tag falls back to the global threshold. -/
theorem HasThreshold.stop (had : ops.HasThreshold globalTag s) (tag : String) :
    HasThreshold (ops ++ [.stop]) tag s := by
  refine hasThreshold_concat_of_not_counts ?_ (fun _ _ _ _ => counts_concat_of_clears rfl) had
  rintro s (set | ⟨set, -, -⟩ | ⟨made, -⟩)
  · cases set
  · cases set
  · cases made

theorem hasThreshold_new (ops : History) (tag : String) :
    HasThreshold (ops ++ [.new]) tag .info :=
  hasThreshold_concat_of_counts (.inr (.inr ⟨rfl, rfl⟩))

end Step

end History

namespace Router

/-- Loggers to come are concerned only by what is set under the global tag. -/
theorem threshold_setThreshold (r : Router) (t : String) (s : Severity) :
    (r.setThreshold t s).2.threshold = if t = globalTag then s else r.threshold := by
  rw [setThreshold]
  split
  · rfl
  · split <;> rfl

/-- A threshold is set for all tags, or for the logger of one. -/
theorem threshold_loggerFor_setThreshold (r : Router) (t tag : String) (s : Severity) :
    ((r.setThreshold t s).2.loggerFor tag).threshold =
      if t = globalTag ∨ (t = tag ∧ tag ∈ r.loggers) then s else (r.loggerFor tag).threshold := by
  by_cases all : t = globalTag
  · rw [if_pos (.inl all), setThreshold, if_pos all, loggerFor, Std.ExtTreeMap.getElem?_map]
    cases r.loggers[tag]? <;> rfl
  · rw [setThreshold, if_neg all]
    cases found : r.loggers[t]? with
    | none =>
      have missing : t ∉ r.loggers := by
        rw [Std.ExtTreeMap.mem_iff_isSome_getElem?, found]
        exact Bool.false_ne_true
      rw [if_neg]
      rintro (same | ⟨rfl, known⟩)
      · exact all same
      · exact missing known
    | some logger =>
      have known : t ∈ r.loggers := by
        rw [Std.ExtTreeMap.mem_iff_isSome_getElem?, found]
        rfl
      show ((r.loggers.insert t _)[tag]?.getD _).threshold = _
      rw [NameMap.getElem?_insert]
      by_cases same : t = tag
      · rw [if_pos same, if_pos (.inr ⟨same, same ▸ known⟩)]
        rfl
      · rw [if_neg same, if_neg]
        · rfl
        · rintro (all' | ⟨same', -⟩)
          · exact all all'
          · exact same same'

/-- Operations that set no threshold and drop no logger leave every threshold what it is. -/
theorem thresholds_heed (r : Router) {op : RouterRequest} (kept : ¬ op.clears)
    (idle : ∀ t s, op ≠ .setThreshold t s) :
    (r.heed op).threshold = r.threshold ∧
      ∀ tag, ((r.heed op).loggerFor tag).threshold = (r.loggerFor tag).threshold := by
  cases op with
  | setThreshold t s => exact absurd rfl (idle t s)
  | new => exact absurd rfl kept
  | stop => exact absurd rfl kept
  | register t =>
    rw [heed]
    split
    · exact ⟨r.threshold_meet t, fun tag => by rw [loggerFor_meet]⟩
    · exact ⟨rfl, fun _ => rfl⟩
  | log t severity text =>
    rw [heed]
    split
    · exact ⟨r.threshold_meet t, fun tag => by rw [loggerFor_meet]⟩
    · exact ⟨rfl, fun _ => rfl⟩
  | addSink t sink obstacle? =>
    rw [heed]
    split
    · refine ⟨rfl, fun tag => ?_⟩
      show (r.loggers[tag]?.getD _).threshold = (r.loggers[tag]?.getD _).threshold
      cases r.loggers[tag]? <;> rfl
    · exact ⟨rfl, fun _ => rfl⟩
  | _ => exact ⟨rfl, fun _ => rfl⟩

end Router

namespace History

/-- The thresholds of a router are those that its history sets: the global one, and that of the
logger which a message meets. -/
theorem hasThreshold_router (ops : History) :
    ops.HasThreshold globalTag ops.router.threshold ∧
      ∀ tag, ops.HasThreshold tag (ops.router.loggerFor tag).threshold := by
  -- the global threshold is what the others fall back to, so both go through one induction
  induction ops using List.reverseRecOn with
  | nil => exact ⟨hasThreshold_nil _, hasThreshold_nil⟩
  | append_singleton ops op ih =>
    rw [router_concat]
    by_cases idle : ¬ op.clears ∧ ∀ t s, op ≠ .setThreshold t s
    · obtain ⟨same, same'⟩ := (router ops).thresholds_heed idle.1 idle.2
      rw [same]
      simp only [same']
      exact ⟨ih.1.keeps idle.1 idle.2, fun tag => (ih.2 tag).keeps idle.1 idle.2⟩
    cases op with
    | new => exact ⟨hasThreshold_new ops _, hasThreshold_new ops⟩
    | stop => exact ⟨ih.1.stop _, ih.1.stop⟩
    | setThreshold t s =>
      rw [Router.heed]
      refine ⟨?_, fun tag => ?_⟩
      · rw [Router.threshold_setThreshold]
        split
        · exact hasThreshold_set (.inl ‹_›)
        · rename_i own
          exact ih.1.set fun counts => own (counts.elim id And.left)
      · rw [Router.threshold_loggerFor_setThreshold]
        split
        · rename_i counts
          rw [mem_loggers_router] at counts
          exact hasThreshold_set counts
        · rename_i other
          rw [mem_loggers_router] at other
          exact (ih.2 tag).set other
    | _ => exact absurd ⟨Bool.false_ne_true, fun t s => by simp⟩ idle

/-- A logger always has a sink. -/
theorem sinksFor_ne_nil (before : History) (tag : String) : before.sinksFor tag ≠ [] := by
  rw [sinksFor]
  split
  · exact List.cons_ne_nil _ _
  · rename_i some
    exact mt List.isEmpty_iff.mpr some

/-- A message that passes goes to the sinks that there were when its logger was made. -/
theorem deliveries_log_of_passes {ops before : History} {tag : String} {severity : Severity}
    (passes : ops.Passes tag severity) (met : ops.Met tag before) (text : String) :
    (ops.router.serve (.log tag severity text)).deliveries =
      (before.sinksFor tag).map (Delivery.mk · tag severity text) := by
  obtain ⟨runs, heard, s, has, reaches⟩ := passes
  have same := has.unique ((hasThreshold_router ops).2 tag)
  show (ops.router.log tag severity text).1 = _
  rw [Router.log_of_hears ((hears_router ops tag).mpr ⟨runs, heard⟩), Logger.write, ← same,
    met.sinks]
  exact if_pos (decide_eq_true reaches)

theorem deliveries_log_of_not_passes {ops : History} {tag : String} {severity : Severity}
    (stopped : ¬ ops.Passes tag severity) (text : String) :
    (ops.router.serve (.log tag severity text)).deliveries = [] := by
  show (ops.router.log tag severity text).1 = _
  by_cases hears : ops.router.Hears tag
  · obtain ⟨runs, heard⟩ := (hears_router ops tag).mp hears
    rw [Router.log_of_hears hears, Logger.write, if_neg]
    exact fun reaches => stopped
      ⟨runs, heard, _, (hasThreshold_router ops).2 tag, of_decide_eq_true reaches⟩
  · rw [Router.log_of_not_hears hears]

/-- A threshold for a tag without a logger is refused and forgotten. -/
theorem serve_setThreshold_of_not_hasLogger {ops : History} {tag : String} (own : tag ≠ globalTag)
    (none : ¬ ops.HasLogger tag) (s : Severity) :
    (ops.router.serve (.setThreshold tag s)).reply =
        .ok (.plain (Problem.unknownLogger tag).report) ∧
      ∀ later, router (ops ++ .setThreshold tag s :: later) = router (ops ++ later) := by
  have missing := Std.ExtTreeMap.getElem?_eq_none (mt (mem_loggers_router ops tag).mp none)
  have refused :
      ops.router.setThreshold tag s = ((Problem.unknownLogger tag).report, ops.router) := by
    rw [Router.setThreshold, if_neg own, missing]
  refine ⟨?_, fun later => ?_⟩
  · show Except.ok (Answer.plain (ops.router.setThreshold tag s).1) = _
    rw [refused]
  · rw [router, router, List.foldl_append, List.foldl_append, List.foldl_cons]
    show List.foldl _ (ops.router.setThreshold tag s).2 later = _
    rw [refused]
    rfl

/-- A message leaves something behind exactly if the router was last started and not stopped, the
tag was not last disabled, and the severity is not below the one threshold that the latest
operation which counts has set. It then goes, as it is, to the sinks that its logger was made with,
each in its turn. To set the threshold of a tag that has no logger is refused, and no message ever
shows that it was tried. -/
theorem delivers_iff_passes (ops : History) (tag : String) (severity : Severity) (text : String) :
    (∃! s, ops.HasThreshold tag s) ∧
      ((ops.router.serve (.log tag severity text)).deliveries ≠ [] ↔ ops.Passes tag severity) ∧
      (ops.Passes tag severity → ∃! before, ops.Met tag before ∧
        (ops.router.serve (.log tag severity text)).deliveries =
          (before.sinksFor tag).map (Delivery.mk · tag severity text)) ∧
      (tag ≠ globalTag → ¬ ops.HasLogger tag → ∀ s,
        (∃ refusal, (ops.router.serve (.setThreshold tag s)).reply = .ok (.plain refusal) ∧
          refusal.code = .notFound) ∧
        ∀ later, router (ops ++ .setThreshold tag s :: later) = router (ops ++ later)) := by
  obtain ⟨before, met, only⟩ := ops.existsUnique_met tag
  refine ⟨⟨_, (hasThreshold_router ops).2 tag, fun s has => ?_⟩, ⟨fun delivers => ?_, ?_⟩,
    fun passes => ?_, ?_⟩
  · exact has.unique ((hasThreshold_router ops).2 tag)
  · by_contra stopped
    exact delivers (deliveries_log_of_not_passes stopped text)
  · intro passes
    rw [deliveries_log_of_passes passes met]
    exact mt List.map_eq_nil_iff.mp (before.sinksFor_ne_nil tag)
  · exact ⟨before, ⟨met, deliveries_log_of_passes passes met text⟩, fun b h => only b h.1⟩
  · intro own none s
    obtain ⟨refused, forgotten⟩ := serve_setThreshold_of_not_hasLogger own none s
    exact ⟨⟨_, refused, rfl⟩, forgotten⟩

end History

end Singletons.Logging
