import Singletons.Proofs.Logging.Loggers
import Singletons.Proofs.Logging.Setup
/-!
# Settings have the effect that they describe

The global tag is read first, and every other tag gets its logger while its own sinks and the
global ones are known. So where each tag stands under a key of its own, the loggers are those that
the settings describe by tag, in whatever order the keys stand.
-/

namespace Singletons.Logging

open Document

namespace Router

/-- Listing sinks changes what is listed under their tag, and nothing else. -/
theorem exists_foldl_add_eq (r : Router) (tag : String) (listed : List Sink) :
    ∃ sinks, listed.foldl (·.add tag ·) r = { r with sinks := sinks } ∧
      ∀ t, sinks.getD t [] = if tag = t then r.sinks.getD tag [] ++ listed
        else r.sinks.getD t [] := by
  induction listed generalizing r with
  | nil =>
    refine ⟨r.sinks, rfl, fun t => ?_⟩
    split
    · rename_i same
      rw [same, List.append_nil]
    · rfl
  | cons sink listed ih =>
    obtain ⟨sinks, same, look⟩ := ih (r.add tag sink)
    refine ⟨sinks, same, fun t => ?_⟩
    rw [look, add, NameMap.getD_insert, NameMap.getD_insert, if_pos rfl, List.append_assoc]
    split <;> rfl

/-- What is said about all tags leaves a fresh router without loggers. -/
theorem exists_prepare_eq (d : Directive) :
    ∃ sinks loggers, (start {}).prepare d =
        { running := true, sinks := sinks, loggers := loggers,
          threshold := d.threshold?.getD .info } ∧
      (∀ t, sinks.getD t [] = if globalTag = t then d.sinks else []) ∧
      ∀ t : String, loggers[t]? = none := by
  obtain ⟨loggers, limited, empty⟩ : ∃ loggers : NameMap Logger,
      (start {}).limit globalTag d.threshold? =
        { running := true, loggers := loggers, threshold := d.threshold?.getD .info } ∧
      ∀ t : String, loggers[t]? = none := by
    cases d.threshold? with
    | none => exact ⟨∅, rfl, fun t => Std.ExtTreeMap.getElem?_empty⟩
    | some s =>
      refine ⟨(∅ : NameMap Logger).map fun _ logger => { logger with threshold := s }, ?_,
        fun t => ?_⟩
      · rw [limit, Option.elim_some, setThreshold, if_pos rfl]
        rfl
      · simp
  obtain ⟨sinks, same, look⟩ :=
    exists_foldl_add_eq ((start {}).limit globalTag d.threshold?) globalTag d.sinks
  refine ⟨sinks, loggers, ?_, fun t => ?_, empty⟩
  · rw [prepare, same, limited]
  · rw [look, limited]
    simp

/-- A tag that is told of for the first time gets its logger, and nothing else changes but the
sinks that are listed under it. -/
theorem exists_configure_eq {r : Router} {tag : String} (running : r.running = true)
    (other : tag ≠ globalTag) (new : r.loggers[tag]? = none) (d : Directive) :
    ∃ loggers, r.configure tag d =
        { d.sinks.foldl (·.add tag ·) r with loggers := loggers } ∧
      ∀ t, loggers[t]? = if tag = t then
        some ⟨(d.sinks.foldl (·.add tag ·) r).sinksFor tag, d.threshold?.getD r.threshold⟩
        else r.loggers[t]? := by
  obtain ⟨sinks, same, -⟩ := r.exists_foldl_add_eq tag d.sinks
  rw [configure, same]
  have made :
      (register { r with sinks := sinks } tag).2 = create { r with sinks := sinks } tag := by
    rw [register, if_neg (by simp [running]), if_neg]
    rw [Std.ExtTreeMap.contains_eq_isSome_getElem?]
    simp [new]
  let fresh : Logger := ⟨sinksFor { r with sinks := sinks } tag, r.threshold⟩
  rw [made]
  cases d.threshold? with
  | none =>
    refine ⟨r.loggers.insert tag fresh, rfl, fun t => ?_⟩
    rw [NameMap.getElem?_insert]
    rfl
  | some s =>
    refine ⟨(r.loggers.insert tag fresh).insert tag { fresh with threshold := s }, ?_,
      fun t => ?_⟩
    · rw [limit, Option.elim_some, setThreshold, if_neg other, create,
        NameMap.getElem?_insert, if_pos rfl]
    · rw [NameMap.getElem?_insert, NameMap.getElem?_insert]
      split <;> rfl

end Router

/-- Some tags have what is said about them, and the others have nothing yet. -/
structure Configured (shared : Directive) (own : String → Directive) (told : List String)
    (r : Router) : Prop where
  running : r.running = true
  disabled : r.disabled = ∅
  threshold : r.threshold = shared.threshold?.getD .info
  listed : ∀ tag, r.sinks.getD tag [] = if tag = globalTag then shared.sinks
    else if tag ∈ told then (own tag).sinks else []
  loggers : ∀ tag, tag ≠ globalTag →
    r.loggers[tag]? = if tag ∈ told then some ((own tag).logger shared) else none

namespace Configured

variable {shared : Directive} {own : String → Directive}

theorem prepare (shared : Directive) (own : String → Directive) :
    Configured shared own [] ((Router.start {}).prepare shared) := by
  obtain ⟨sinks, loggers, same, look, empty⟩ := Router.exists_prepare_eq shared
  rw [same]
  refine ⟨rfl, rfl, rfl, fun tag => ?_, fun tag _ => empty tag⟩
  rw [look]
  simp [eq_comm]

/-- One entry after another is told of; the one of the global tag has nothing more to say. -/
theorem obey {told : List String} {r : Router} (configured : Configured shared own told r)
    {tag : String} (new : tag ∉ told) :
    Configured shared own (told ++ [tag]) (r.obey (tag, own tag)) := by
  have before {t : String} (apart : t ≠ tag) : t ∈ told ++ [tag] ↔ t ∈ told := by simp [apart]
  have now : tag ∈ told ++ [tag] := by simp
  rw [Router.obey]
  by_cases every : tag = globalTag
  · rw [if_pos every]
    refine ⟨configured.running, configured.disabled, configured.threshold, fun t => ?_,
      fun t other => ?_⟩
    · rw [configured.listed]
      by_cases same : t = globalTag
      · rw [if_pos same, if_pos same]
      · simp only [if_neg same, before (every ▸ same)]
    · rw [configured.loggers t other]
      simp only [before (every ▸ other)]
  rw [if_neg every]
  have unlisted : r.sinks.getD tag [] = [] := by
    rw [configured.listed, if_neg every, if_neg new]
  have unmade : r.loggers[tag]? = none := by rw [configured.loggers tag every, if_neg new]
  obtain ⟨sinks, added, list⟩ := r.exists_foldl_add_eq tag (own tag).sinks
  obtain ⟨loggers, same, look⟩ :=
    Router.exists_configure_eq configured.running every unmade (own tag)
  rw [added] at same look
  have listed (t : String) : sinks.getD t [] = if t = globalTag then shared.sinks
      else if t ∈ told ++ [tag] then (own t).sinks else [] := by
    rw [list]
    by_cases this : tag = t
    · rw [← this, if_pos rfl, if_neg every, if_pos now, unlisted, List.nil_append]
    · simp only [if_neg this, configured.listed, before (Ne.symm this)]
  have made : Router.sinksFor { r with sinks := sinks } tag = ((own tag).logger shared).sinks := by
    rw [Router.sinksFor, listed, listed, if_neg every, if_pos now, if_pos rfl]
    rfl
  have limited : (own tag).threshold?.getD r.threshold = ((own tag).logger shared).threshold := by
    rw [configured.threshold, Directive.logger]
    cases (own tag).threshold? <;> rfl
  rw [same]
  refine ⟨configured.running, configured.disabled, configured.threshold, listed,
    fun t other => ?_⟩
  rw [look, made, limited]
  by_cases this : tag = t
  · rw [← this, if_pos rfl, if_pos now]
  · simp only [if_neg this, configured.loggers t other, before (Ne.symm this)]

theorem foldl_obey {told : List String} {r : Router} (configured : Configured shared own told r)
    {tags : List String} (distinct : (told ++ tags).Nodup) :
    Configured shared own (told ++ tags)
      ((tags.map fun tag => (tag, own tag)).foldl Router.obey r) := by
  induction tags generalizing told r with
  | nil => rwa [List.append_nil]
  | cons tag tags ih =>
    have split : told ++ tag :: tags = told ++ [tag] ++ tags := by simp
    have new : tag ∉ told := fun h =>
      (List.nodup_append.mp distinct).2.2 tag h tag List.mem_cons_self rfl
    rw [split] at distinct ⊢
    exact ih (configured.obey new) distinct

theorem carryOut (shared : Directive) (own : String → Directive) {tags : List String}
    (distinct : tags.Nodup) :
    Configured shared own tags
      ((Router.start {}).carryOut ⟨shared, tags.map fun tag => (tag, own tag)⟩) :=
  (prepare shared own).foldl_obey distinct

/-- Every tag meets the logger that is described for it, whether it was told of or not. -/
theorem loggerFor {told : List String} {r : Router} (configured : Configured shared own told r)
    {tag : String} (other : tag ≠ globalTag) (silent : tag ∉ told → own tag = {}) :
    r.loggerFor tag = (own tag).logger shared := by
  rw [Router.loggerFor, configured.loggers tag other]
  split
  · rfl
  · rename_i untold
    rw [silent untold, Option.getD_none, Router.sinksFor, configured.listed, configured.listed,
      if_neg other, if_neg untold, if_pos rfl, configured.threshold]
    rfl

theorem hears {told : List String} {r : Router} (configured : Configured shared own told r)
    (tag : String) : r.Hears tag := by
  refine ⟨configured.running, ?_⟩
  rw [configured.disabled]
  exact Std.ExtTreeSet.not_mem_empty

end Configured

/-- Where a fresh service applies a section with every tag under a key of its own and reports no
refusal, the section says something about every tag; and a service that applies it, with its keys
in whatever order, has for the tags that are named the loggers that it describes, and for no others.
A message, whatever came before, is written by the logger that is described for its tag, and its
tag has that logger then. -/
theorem configured_exactly {host : Host} {s : Service} {root : Document} {log : Entries}
    {result : Plain} (found : root.get? "log" = .ok (some (.map log))) (keyed : Keyed log)
    (applied : ((s.init 0 root).2.apply host).1 = .ok result) (ok : result.isOk = true) :
    (∃ shared own, Describing host log shared own) ∧
      ∀ shared own, Describing host log shared own →
      ∀ (t : Service) (other : Document) (arranged : Entries),
        other.get? "log" = .ok (some (.map arranged)) → arranged.Perm log →
        ∃ r, (t.init 0 other).2.apply host = (.ok (.done ()), ⟨other, some r⟩) ∧
          ∀ tag, tag ≠ globalTag →
            r.loggers[tag]? =
              (if tag ∈ keys log then some ((own tag).logger shared) else none) ∧
            ∀ earlier severity text,
              ((r.logAll earlier).log tag severity text).1 =
                ((own tag).logger shared).write tag severity text ∧
              ((r.logAll earlier).log tag severity text).2.loggers[tag]? =
                some ((own tag).logger shared) := by
  constructor
  · obtain ⟨entries, shape, here⟩ := exists_entries_of_get? found
    by_contra nothing
    have unplanned : ¬ ∃ plan, Plans host (.map log) plan :=
      fun ⟨plan, plans⟩ => nothing (exists_describing plans)
    obtain ⟨refusal, s', refused, reported⟩ := Service.apply_of_no_plan shape here unplanned s
    rw [refused] at applied
    obtain rfl : refusal.result = result := by simpa using applied
    exact reported.not_isOk ok
  · intro shared own describing t other arranged there perm
    obtain ⟨entries, shape, here⟩ := exists_entries_of_get? there
    have keyed' : Keyed arranged := keyed.perm perm
    have plans := (describing.perm keyed perm).plans keyed'
    refine ⟨_, Service.apply_of_plans shape here plans t, fun tag apart => ?_⟩
    have configured := Configured.carryOut shared own keyed'.distinct
    have silent (h : tag ∉ keys arranged) : own tag = {} :=
      describing.own_of_not_mem apart fun named => h ((keys_perm perm).mem_iff.mpr named)
    rw [← configured.loggerFor apart silent]
    refine ⟨?_, Router.log_logAll (configured.hears tag)⟩
    rw [configured.loggers tag apart, configured.loggerFor apart silent]
    simp only [(keys_perm perm).mem_iff]

/-- Warnings of one tag go to the console and to the file that is for all, although the entry for
all stands last. -/
def sharedLast : Entries :=
  [(.scalar "a", .map [(.scalar "level", .scalar "warn"),
      (.scalar "sinks", .sequence [.map [(.scalar "type", .scalar "console")]])]),
    (.scalar "*", .map [(.scalar "sinks", .sequence
      [.map [(.scalar "type", .scalar "file"), (.scalar "filename", .scalar "f")]])])]

def sharedLastRoot : Document := .map [(.scalar "log", .map sharedLast)]

/-- A named tag has its own sink and the shared one, and any other tag the shared one alone. -/
theorem configured_shared_last : ∃ r,
    (({} : Service).init 0 sharedLastRoot).2.apply default =
        (.ok (.done ()), ⟨sharedLastRoot, some r⟩) ∧
      r.loggers["a"]? = some ⟨[.console, .file "f"], .warning⟩ ∧
      r.loggers["b"]? = none ∧
      (r.log "b" .info "m").1 = [⟨.file "f", "b", .info, "m"⟩] := by
  let shared : Directive := { sinks := [.file "f"] }
  let own : String → Directive := fun tag =>
    if tag = "a" then { sinks := [.console], threshold? := some .warning } else {}
  have keyed : Keyed sharedLast := by
    refine ⟨fun entry h => ?_, by decide⟩
    simp only [sharedLast, List.mem_cons, List.not_mem_nil, or_false] at h
    rcases h with rfl | rfl
    · exact ⟨"a", rfl⟩
    · exact ⟨"*", rfl⟩
  have describing : Describing default sharedLast shared own := by
    refine ⟨⟨_, rfl, .cons ⟨_, rfl, .file rfl rfl rfl⟩ .nil, rfl⟩, fun tag other => ?_⟩
    by_cases named : tag = "a"
    · subst named
      exact ⟨_, rfl, .cons ⟨_, rfl, .console rfl⟩ .nil, ⟨_, rfl, rfl⟩⟩
    · have absent : tag ∉ keys sharedLast := by
        have listed : keys sharedLast = ["a", globalTag] := rfl
        simpa [listed, named] using other
      rw [Assigns, child?_eq_none_iff.mpr absent]
      exact if_neg named
  have here : sharedLastRoot.get? "log" = .ok (some (.map sharedLast)) := rfl
  have applied : ((({} : Service).init 0 sharedLastRoot).2.apply default).1 = .ok (.done ()) := by
    obtain ⟨entries, shape, found⟩ := exists_entries_of_get? here
    rw [Service.apply_of_plans shape found (describing.plans keyed)]
  obtain ⟨-, configured⟩ := configured_exactly here keyed applied rfl
  obtain ⟨r, ends, loggers⟩ := configured shared own describing {} _ _ here (.refl _)
  refine ⟨r, ends, ?_, ?_, ?_⟩
  · rw [(loggers "a" (by decide)).1]
    rfl
  · rw [(loggers "b" (by decide)).1]
    rfl
  · exact ((loggers "b" (by decide)).2 [] .info "m").1

end Singletons.Logging
