import Singletons.Logging.Sink
import Singletons.Proofs.Json.Documents
import Singletons.Proofs.Json.Strings
/-!
# What a stream server reads

A push is one document with one stream, which has three labels and one line with its time. The line
comes through whatever it holds; the labels that come from outside are put into the document as they
are, so they come through exactly if all their characters stand for themselves.
-/

namespace Singletons.Logging

open Json

/-- One stream with its labels, and one line with the time of its message. -/
def pushed (job label level : String) (nanoseconds : Int) (line : String) : Value :=
  .object [("streams", .array [.object [
    ("stream", .object [("job", .string job), ("tag", .string label), ("level", .string level)]),
    ("values", .array [.array [.string (toString nanoseconds), .string line]])]])]

/-- The five texts that are put into a template, and what stands around them. -/
private theorem toList_template (a job b label c level d time e line f : String) :
    (a ++ job ++ b ++ label ++ c ++ level ++ d ++ time ++ e ++ line ++ f).toList =
      a.toList ++ (job.toList ++ (b.toList ++ (label.toList ++ (c.toList ++ (level.toList ++
        (d.toList ++ (time.toList ++ (e.toList ++ (line.toList ++ f.toList))))))))) := by
  simp only [String.toList_append, List.append_assoc]

theorem toList_streamBody (job label : String) (severity : Severity) (nanoseconds : Int)
    (line : String) :
    (streamBody job label severity nanoseconds line).toList =
      '\x7b' :: '"' :: ("streams".toList ++ '"' :: ':' :: '[' :: '\x7b' ::
      '"' :: ("stream".toList ++ '"' :: ':' :: '\x7b' ::
      '"' :: ("job".toList ++ '"' :: ':' ::
      '"' :: (job.toList ++ '"' :: ',' ::
      '"' :: ("tag".toList ++ '"' :: ':' ::
      '"' :: (label.toList ++ '"' :: ',' ::
      '"' :: ("level".toList ++ '"' :: ':' ::
      '"' :: (severity.label.toList ++ '"' :: '\x7d' :: ',' ::
      '"' :: ("values".toList ++ '"' :: ':' :: '[' :: '[' ::
      '"' :: ((toString nanoseconds).toList ++ '"' :: ',' ::
      '"' :: ((escape line).toList ++ '"' :: ']' :: ']' :: '\x7d' :: ']' ::
        ['\x7d']))))))))))) := by
  have toJob : "\x7b\"streams\":[\x7b\"stream\":\x7b\"job\":\"".toList =
      '\x7b' :: '"' :: ("streams".toList ++ '"' :: ':' :: '[' :: '\x7b' ::
      '"' :: ("stream".toList ++ '"' :: ':' :: '\x7b' ::
      '"' :: ("job".toList ++ ['"', ':', '"']))) := by
    decide
  have toTag : "\",\"tag\":\"".toList = '"' :: ',' :: '"' :: ("tag".toList ++ ['"', ':', '"']) := by
    decide
  have toLevel : "\",\"level\":\"".toList =
      '"' :: ',' :: '"' :: ("level".toList ++ ['"', ':', '"']) := by
    decide
  have toTime : "\"\x7d,\"values\":[[\"".toList =
      '"' :: '\x7d' :: ',' :: '"' :: ("values".toList ++ ['"', ':', '[', '[', '"']) := by
    decide
  have toLine : "\",\"".toList = ['"', ',', '"'] := by
    decide
  have toEnd : "\"]]\x7d]\x7d".toList = ['"', ']', ']', '\x7d', ']', '\x7d'] := by
    decide
  unfold streamBody
  rw [toList_template, toJob, toTag, toLevel, toTime, toLine, toEnd]
  simp only [List.append_assoc, List.cons_append, List.nil_append]

/-- Every label that the code itself puts into a push stands for itself. -/
theorem plain_label (severity : Severity) : ∀ c ∈ severity.label.toList, Plain c := by
  have checked : severity.label.toList.all (Plain ·) = true := by cases severity <;> decide
  simpa only [List.all_eq_true, decide_eq_true_eq] using checked

theorem plain_of_isDigit {c : Char} (digit : c.isDigit) : Plain c := by
  obtain ⟨least, most⟩ : 48 ≤ c.toNat ∧ c.toNat ≤ 57 := Char.isDigit_iff_toNat.mp digit
  refine ⟨by omega, ?_, ?_⟩
  · rintro rfl
    exact absurd least (by decide)
  · rintro rfl
    exact absurd most (by decide)

/-- A number is written in digits, perhaps after a sign, all of which stand for themselves. -/
theorem plain_toString (n : Int) : ∀ c ∈ (toString n).toList, Plain c := by
  have digits (m : Nat) : ∀ c ∈ (Nat.repr m).toList, Plain c := by
    intro c h
    rw [Nat.repr, String.toList_ofList] at h
    exact plain_of_isDigit (Nat.isDigit_of_mem_toDigits (by decide) (by decide) h)
  cases n with
  | ofNat m => exact digits m
  | negSucc m =>
    show ∀ c ∈ ("-" ++ Nat.repr (m + 1)).toList, Plain c
    have sign : "-".toList = ['-'] := by decide
    rw [String.toList_append, sign, List.forall_mem_append, List.forall_mem_singleton]
    exact ⟨by decide, digits (m + 1)⟩

/-- Whatever the severity, the time and the line are, a server reads from a push one stream, with
the labels given, the time and the line, exactly if all characters of the two free labels stand for
themselves in a string. Such a body, and no other, is what a stream sink posts for a message, at any
moment and whatever comes of it, unless there is no handle to post it with. -/
theorem push_faithful_iff (job label : String) (severity : Severity) :
    (∀ nanoseconds line, parse (streamBody job label severity nanoseconds line) =
        some (pushed job label severity.label nanoseconds line) ↔
      (∀ c ∈ job.toList, Plain c) ∧ ∀ c ∈ label.toList, Plain c) ∧
    ∀ url logger text now transfer address body,
      .posted address body ∈
          (Delivery.mk (.loki url job label) logger severity text).effects now transfer ↔
        transfer ≠ .unavailable ∧ address = untilNul url ∧
          body = streamBody job label severity now.nanoseconds
            (formatted now.date logger severity text) := by
  constructor
  · intro nanoseconds line
    have fixed : ∀ s ∈ ["streams", "stream", "job", "tag", "level", "values"],
        ∀ c ∈ s.toList, Plain c := by
      have checked : ["streams", "stream", "job", "tag", "level", "values"].all
          (fun s => s.toList.all (Plain ·)) = true := by decide
      simpa only [List.all_eq_true, decide_eq_true_eq] using checked
    simp only [List.forall_mem_cons] at fixed
    obtain ⟨streams, stream, jobKey, tagKey, levelKey, values, -⟩ := fixed
    rw [parse_eq_some_iff, toList_streamBody]
    simp only [pushed, Value.tokens, moreItems, moreMembers, List.cons_append, List.nil_append]
    rw [tokens_mark_iff rfl, tokens_plain_iff streams, tokens_mark_iff rfl, tokens_mark_iff rfl,
      tokens_mark_iff rfl, tokens_plain_iff stream, tokens_mark_iff rfl, tokens_mark_iff rfl,
      tokens_plain_iff jobKey, tokens_mark_iff rfl, tokens_quoted_iff, tokens_mark_iff rfl,
      tokens_plain_iff tagKey, tokens_mark_iff rfl, tokens_quoted_iff, tokens_mark_iff rfl,
      tokens_plain_iff levelKey, tokens_mark_iff rfl, tokens_plain_iff (plain_label severity),
      tokens_mark_iff rfl, tokens_mark_iff rfl, tokens_plain_iff values, tokens_mark_iff rfl,
      tokens_mark_iff rfl, tokens_mark_iff rfl, tokens_plain_iff (plain_toString nanoseconds),
      tokens_mark_iff rfl, tokens_escape_iff, tokens_mark_iff rfl, tokens_mark_iff rfl,
      tokens_mark_iff rfl, tokens_mark_iff rfl, tokens_mark_iff rfl]
    simp [tokens]
  · intro url logger text now transfer address body
    cases transfer <;> simp [Delivery.effects]

/-- A quote in a label ends it early: what is read from the push is not what was given. -/
theorem label_misread : ∃ body,
    Effect.posted "http://h/push" body ∈
        (Delivery.mk (.loki "http://h/push" "x\"y" "a") "a" .info "m").effects
          ⟨"1970-01-01 00:00:00.000", 0⟩ .done ∧
      parse body ≠ some (pushed "x\"y" "a" "info" 0
        (formatted "1970-01-01 00:00:00.000" "a" .info "m")) := by
  obtain ⟨read, posts⟩ := push_faithful_iff "x\"y" "a" .info
  refine ⟨_, (posts ..).mpr ⟨nofun, by decide, rfl⟩, ?_⟩
  intro faithful
  have plain := ((read ..).mp faithful).1
  exact absurd (plain '"' (by decide)) (by decide)

end Singletons.Logging
