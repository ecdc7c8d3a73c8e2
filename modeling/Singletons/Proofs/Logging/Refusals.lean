import Singletons.Logging.Request
import Singletons.Proofs.Logging.Setup
/-!
# Refused settings are reported

Settings can be handed over, read from a file, or read from a file that the configuration of a
registry names. In each way, settings that cannot be applied are reported as such, unless the
document as a whole is a scalar: then an error is thrown.
-/

namespace Singletons.Logging

open Document

/-- A reply reports whether a document can be applied, and if not, that it is the document. -/
def Reports (host : Host) (root : Document) (reply : Reply) : Prop :=
  ∃ r : Plain, reply = .ok (.plain r) ∧ (r.isOk = true ↔ Applicable host root) ∧
    (¬ r.isOk = true → r.code = .invalidArgument ∨ r.code = .notSupported)

/-- The ways in which a document is applied to a fresh service. -/
inductive Submits (host : Host) (root : Document) : List Request → Prop
  | direct : Submits host root [.init 0 root, .apply]
  | file {path : String} (stored : host.files path = some root) : Submits host root [.start path]
  | config {config : Config} (named : config.logging ≠ "")
      (stored : host.files config.logging = some root) : Submits host root [.applyConfig config]

namespace Service

/-- What requests are answered one after another. -/
def answers (s : Service) (host : Host) : List Request → List Reply
  | [] => []
  | request :: rest =>
    (s.serve host request).reply :: (s.serve host request).state.answers host rest

theorem answers_direct (s : Service) (host : Host) (root : Document) :
    s.answers host [.init 0 root, .apply] =
      [.ok (.plain (.done ())), ((s.init 0 root).2.apply host).1.map .plain] := rfl

theorem answers_file {host : Host} {root : Document} {path : String}
    (stored : host.files path = some root) (s : Service) :
    s.answers host [.start path] = [((s.init 0 root).2.apply host).1.map .plain] := by
  rw [answers, serve, startFile, initFile, stored]
  rfl

/-- The configuration of a registry passes on what its file has led to, with a word of its own
before what went wrong. -/
theorem answers_config {host : Host} {root : Document} {config : Config}
    (named : config.logging ≠ "") (stored : host.files config.logging = some root) (s : Service) :
    s.answers host [.applyConfig config] =
      [((s.init 0 root).2.apply host).1.map
        fun r => .plain (r.forwardWith "registry logging")] := by
  have started : s.startFile host config.logging = (s.init 0 root).2.apply host := by
    rw [startFile, initFile, stored]
    rfl
  rw [answers, serve, applyConfig, if_neg named, started]
  rcases (s.init 0 root).2.apply host with ⟨_ | r, s'⟩
  · rfl
  · cases h : r.isOk <;> simp [h, answers, Result.forwardWith, Except.map]

/-- A fresh service throws an error for a scalar, and answers anything else with a result. -/
theorem fresh_apply (s : Service) (host : Host) (root : Document) :
    (∃ text, root = .scalar text ∧ ((s.init 0 root).2.apply host).1 = .error .malformed) ∨
      (∀ text, root ≠ .scalar text) ∧ ∃ r, ((s.init 0 root).2.apply host).1 = .ok r ∧
        Reports host root (.ok (.plain r)) := by
  cases shape : root.entries with
  | error =>
    left
    cases root with
    | scalar text => exact ⟨text, rfl, rfl⟩
    | _ => cases shape
  | ok entries =>
    right
    refine ⟨?_, ?_⟩
    · rintro text rfl
      cases shape
    cases found : child? "log" entries with
    | none =>
      have applicable : Applicable host root := ⟨entries, shape, by simp [found]⟩
      refine ⟨.done (), ?_, _, rfl, iff_of_true rfl applicable, fun h => absurd rfl h⟩
      rw [init, if_pos rfl, apply]
      simp only [shape, found]
    | some log =>
      by_cases plan : ∃ plan, Plans host log plan
      · have applicable : Applicable host root := by
          refine ⟨entries, shape, fun other same => ?_⟩
          obtain rfl : log = other := by simpa [found] using same
          exact plan
        obtain ⟨plan, plans⟩ := plan
        refine ⟨.done (), ?_, _, rfl, iff_of_true rfl applicable, fun h => absurd rfl h⟩
        rw [apply_of_plans shape found plans]
      · obtain ⟨refusal, s', refused, reported⟩ := apply_of_no_plan shape found plan s
        have unfit : ¬ Applicable host root := by
          rintro ⟨others, same, sensible⟩
          obtain rfl : entries = others := by simpa [shape] using same
          exact plan (sensible log found)
        refine ⟨refusal.result, ?_, _, rfl, iff_of_false reported.not_isOk unfit, fun _ => reported⟩
        rw [refused]

end Service

/-- A word before what went wrong changes neither whether something did nor what it was. -/
theorem Reports.forwardWith {host : Host} {root : Document} {r : Plain}
    (reports : Reports host root (.ok (.plain r))) (word : String) :
    Reports host root (.ok (.plain (r.forwardWith word))) := by
  obtain ⟨r', same, fit, unfit⟩ := reports
  obtain rfl : r = r' := by simpa using same
  refine ⟨_, rfl, ?_⟩
  unfold Result.forwardWith
  split
  · rename_i ok
    exact ⟨iff_of_true rfl (fit.mp ok), fun h => absurd rfl h⟩
  · exact ⟨fit, unfit⟩

/-- Whatever the way is, the last answer is that of a fresh service, passed on in a manner that
keeps what it reports. -/
theorem exists_answers {host : Host} {root : Document} {requests : List Request}
    (submits : Submits host root requests) (s : Service) :
    ∃ (opening : List Reply) (pass : Plain → Plain), s.answers host requests =
        opening ++ [((s.init 0 root).2.apply host).1.map fun r => .plain (pass r)] ∧
      (∀ o ∈ opening, o = .ok (.plain (.done ()))) ∧
      ∀ r, Reports host root (.ok (.plain r)) → Reports host root (.ok (.plain (pass r))) := by
  cases submits with
  | direct => exact ⟨[_], id, s.answers_direct host root, by simp, fun _ => id⟩
  | file stored => exact ⟨[], id, s.answers_file stored, by simp, fun _ => id⟩
  | config named stored =>
    exact ⟨[], _, s.answers_config named stored, by simp, fun _ reports => reports.forwardWith _⟩

/-- In whatever way and to whatever service a document is submitted, what comes last is a report
whether the document can be applied, exactly if the document is not a scalar. For a scalar an error
is thrown in each of the ways. -/
theorem settings_reported_iff {host : Host} {root : Document} {requests : List Request}
    (submits : Submits host root requests) (s : Service) :
    ∃ opening reply, s.answers host requests = opening ++ [reply] ∧
      (∀ o ∈ opening, o = .ok (.plain (.done ()))) ∧
      (Reports host root reply ↔ ∀ text, root ≠ .scalar text) ∧
      ∀ text, root = .scalar text → reply = .error .malformed := by
  obtain ⟨opening, pass, answers, quiet, keeps⟩ := exists_answers submits s
  refine ⟨opening, _, answers, quiet, ?_⟩
  obtain ⟨text, scalar, thrown⟩ | ⟨other, r, answered, reports⟩ := s.fresh_apply host root
  · rw [thrown]
    refine ⟨iff_of_false ?_ fun h => h text scalar, fun _ _ => rfl⟩
    rintro ⟨_, same, _⟩
    cases same
  · rw [answered]
    exact ⟨iff_of_true (keeps r reports) other, fun text scalar => absurd scalar (other text)⟩

def scalarFile : Host :=
  { (default : Host) with files := fun path => if path = "f" then some (.scalar "x") else none }

/-- A file that holds nothing but a scalar is not reported: an error is thrown. -/
theorem scalar_thrown :
    (({} : Service).answers scalarFile [.start "f"]).getLast? = some (.error .malformed) ∧
      ¬ Reports scalarFile (.scalar "x") (.error .malformed) := by
  have stored : scalarFile.files "f" = some (.scalar "x") := rfl
  obtain ⟨opening, reply, answers, -, reports, thrown⟩ := settings_reported_iff (.file stored) {}
  obtain rfl := thrown "x" rfl
  rw [answers, List.getLast?_concat]
  exact ⟨rfl, fun h => reports.mp h "x" rfl⟩

end Singletons.Logging
