import Mathlib.Tactic.SplitIfs
import Singletons.Proofs.Json.Reader
/-!
# Strings between quotes

What is escaped is read back, and ends at the quote behind it. A text that is put between quotes as
it is can be read back only if all its characters stand for themselves, as long as a comma and
another quote follow.
-/

namespace Singletons.Json

theorem hexDigit?_digitChar : ∀ k < 16, hexDigit? (Nat.digitChar k) = some k := by decide

theorem unescapeFrom_cons {p q : Pending} {c : Char} {r : List Char} (h : p.next c = some (q, r))
    (cs : List Char) : unescapeFrom p (c :: cs) = (unescapeFrom q cs).map (r ++ ·) := by
  rw [unescapeFrom, h]
  rfl

/-! ## What is escaped is read back -/

theorem unescapeFrom_plain {c : Char} (plain : Plain c) (cs : List Char) :
    unescapeFrom .nothing (c :: cs) = (unescapeFrom .nothing cs).map (c :: ·) := by
  have read : Pending.nothing.next c = some (.nothing, [c]) := by
    rw [Pending.next, if_neg plain.2.2, if_pos plain]
  exact unescapeFrom_cons read cs

theorem unescapeFrom_short {c d : Char} (short : shortEscape? d = some c) (cs : List Char) :
    unescapeFrom .nothing ('\\' :: d :: cs) = (unescapeFrom .nothing cs).map (c :: ·) := by
  have read : Pending.escape.next d = some (.nothing, [c]) := by
    have other : d ≠ 'u' := by
      rintro rfl
      cases short
    rw [Pending.next, if_neg other, short]
    rfl
  rw [unescapeFrom_cons (q := .escape) (r := []) rfl, unescapeFrom_cons read, Option.map_map]
  rfl

theorem unescapeFrom_control {c : Char} (control : c.toNat < 0x20) (cs : List Char) :
    unescapeFrom .nothing
        ('\\' :: 'u' :: '0' :: '0' :: Nat.digitChar (c.toNat / 16) ::
          Nat.digitChar (c.toNat % 16) :: cs) =
      (unescapeFrom .nothing cs).map (c :: ·) := by
  have high := hexDigit?_digitChar (c.toNat / 16) (by omega)
  have low := hexDigit?_digitChar (c.toNat % 16) (by omega)
  have third : (Pending.unit none [0, 0]).next (Nat.digitChar (c.toNat / 16)) =
      some (.unit none [0, 0, c.toNat / 16], []) := by
    simp [Pending.next, high]
  have fourth : (Pending.unit none [0, 0, c.toNat / 16]).next (Nat.digitChar (c.toNat % 16)) =
      some (.nothing, [c]) := by
    have whole : 16 * (c.toNat / 16) + c.toNat % 16 = c.toNat := by omega
    have single : endUnit none c.toNat = some (.nothing, [c]) := by
      rw [endUnit, if_neg (by omega), if_neg (by omega), Char.ofNat_toNat]
    simp [Pending.next, low, whole, single]
  rw [unescapeFrom_cons (q := .escape) (r := []) rfl,
    unescapeFrom_cons (q := .unit none []) (r := []) rfl,
    unescapeFrom_cons (q := .unit none [0]) (r := []) rfl,
    unescapeFrom_cons (q := .unit none [0, 0]) (r := []) rfl, unescapeFrom_cons third,
    unescapeFrom_cons fourth]
  simp [Option.map_map, Function.comp_def]

/-- A character is escaped by a letter behind a backslash, by its number, or not at all. -/
theorem escapeChar_cases (c : Char) :
    (∃ d, shortEscape? d = some c ∧ escapeChar c = ['\\', d]) ∨
    (c.toNat < 0x20 ∧ escapeChar c =
      ['\\', 'u', '0', '0', Nat.digitChar (c.toNat / 16), Nat.digitChar (c.toNat % 16)]) ∨
    (Plain c ∧ escapeChar c = [c]) := by
  by_cases short : c ∈ ['"', '\\', '\x08', '\x0c', '\n', '\r', '\t']
  · left
    simp only [List.mem_cons, List.not_mem_nil, or_false] at short
    rcases short with rfl | rfl | rfl | rfl | rfl | rfl | rfl
    · exact ⟨'"', rfl, rfl⟩
    · exact ⟨'\\', rfl, rfl⟩
    · exact ⟨'b', rfl, rfl⟩
    · exact ⟨'f', rfl, rfl⟩
    · exact ⟨'n', rfl, rfl⟩
    · exact ⟨'r', rfl, rfl⟩
    · exact ⟨'t', rfl, rfl⟩
  · right
    simp only [List.mem_cons, List.not_mem_nil, or_false, not_or] at short
    obtain ⟨quote, backslash, backspace, feed, newline, ret, tab⟩ := short
    rw [escapeChar, if_neg quote, if_neg backslash, if_neg backspace, if_neg feed, if_neg newline,
      if_neg ret, if_neg tab]
    by_cases control : c.toNat < 0x20
    · exact .inl ⟨control, if_pos control⟩
    · exact .inr ⟨⟨Nat.le_of_not_lt control, quote, backslash⟩, if_neg control⟩

theorem unescapeFrom_escapeChar (c : Char) (cs : List Char) :
    unescapeFrom .nothing (escapeChar c ++ cs) = (unescapeFrom .nothing cs).map (c :: ·) := by
  obtain ⟨d, short, same⟩ | ⟨control, same⟩ | ⟨plain, same⟩ := escapeChar_cases c
  · exact same ▸ unescapeFrom_short short cs
  · exact same ▸ unescapeFrom_control control cs
  · exact same ▸ unescapeFrom_plain plain cs

theorem unescapeFrom_escaped (s : List Char) :
    unescapeFrom .nothing (s.flatMap escapeChar) = some s := by
  induction s with
  | nil => rfl
  | cons c s ih =>
    rw [List.flatMap_cons, unescapeFrom_escapeChar, ih]
    rfl

/-- A string is read back from its escaped form. -/
theorem unescape_escape (s : String) : unescape (escape s).toList = some s := by
  rw [unescape, toList_escape, unescapeFrom_escaped]
  exact congrArg some (String.ofList_toList)

theorem unescape_of_plain {s : String} (plain : ∀ c ∈ s.toList, Plain c) :
    unescape s.toList = some s := by
  have read : ∀ cs : List Char, (∀ c ∈ cs, Plain c) → unescapeFrom .nothing cs = some cs := by
    intro cs
    induction cs with
    | nil => exact fun _ => rfl
    | cons c cs ih =>
      intro plain
      rw [unescapeFrom_plain (plain c List.mem_cons_self),
        ih fun d hd => plain d (List.mem_cons_of_mem c hd)]
      rfl
  rw [unescape, read s.toList plain]
  exact congrArg some (String.ofList_toList)

/-! ## Where a string ends -/

theorem closing_cons {c : Char} (quote : c ≠ '"') (backslash : c ≠ '\\') (cs : List Char) :
    closing (c :: cs) = (closing cs).map fun (inside, rest) => (c :: inside, rest) := by
  rw [closing]
  · exact quote
  · rintro _ _ rfl
    exact absurd rfl backslash

theorem closing_append {cs : List Char} (bare : ∀ c ∈ cs, c ≠ '"' ∧ c ≠ '\\')
    (rest : List Char) :
    closing (cs ++ rest) = (closing rest).map fun (inside, rest) => (cs ++ inside, rest) := by
  induction cs with
  | nil => simp
  | cons c cs ih =>
    obtain ⟨⟨quote, backslash⟩, others⟩ := List.forall_mem_cons.mp bare
    rw [List.cons_append, closing_cons quote backslash, ih others, Option.map_map]
    rfl

theorem closing_escapeChar (c : Char) (cs : List Char) :
    closing (escapeChar c ++ cs) =
      (closing cs).map fun (inside, rest) => (escapeChar c ++ inside, rest) := by
  obtain ⟨d, -, same⟩ | ⟨control, same⟩ | ⟨⟨-, bare⟩, same⟩ := escapeChar_cases c
  · rw [same]
    rfl
  · have digits : ∀ k < 16, Nat.digitChar k ≠ '"' ∧ Nat.digitChar k ≠ '\\' := by decide
    have bare : ∀ d ∈ ['0', '0', Nat.digitChar (c.toNat / 16), Nat.digitChar (c.toNat % 16)],
        d ≠ '"' ∧ d ≠ '\\' := by
      simp only [List.forall_mem_cons]
      exact ⟨by decide, by decide, digits _ (by omega), digits _ (by omega), List.forall_mem_nil _⟩
    have passed := closing_append bare cs
    simp only [same, List.cons_append, List.nil_append] at passed ⊢
    rw [closing, passed, Option.map_map]
    rfl
  · rw [same]
    exact closing_cons bare.1 bare.2 cs

/-- An escaped string ends at the quote behind it. -/
theorem closing_escape (s : String) (rest : List Char) :
    closing ((escape s).toList ++ '"' :: rest) = some ((escape s).toList, rest) := by
  have ends : ∀ cs : List Char,
      closing (cs.flatMap escapeChar ++ '"' :: rest) = some (cs.flatMap escapeChar, rest) := by
    intro cs
    induction cs with
    | nil => rfl
    | cons c cs ih =>
      rw [List.flatMap_cons, List.append_assoc, closing_escapeChar, ih]
      rfl
  rw [toList_escape]
  exact ends s.toList

theorem closing_of_plain {cs : List Char} (plain : ∀ c ∈ cs, Plain c) (rest : List Char) :
    closing (cs ++ '"' :: rest) = some (cs, rest) := by
  rw [closing_append fun c hc => (plain c hc).2]
  simp [closing]

/-! ## What is put between quotes as it is -/

/-- No character of the text gives more than one of the string. -/
theorem length_of_next {p p' : Pending} {c : Char} {read : List Char}
    (h : p.next c = some (p', read)) : read.length ≤ 1 := by
  have unit {first? : Option Nat} {n : Nat} (h : endUnit first? n = some (p', read)) :
      read.length ≤ 1 := by
    unfold endUnit at h
    split at h <;> grind
  cases p with
  | nothing => grind [Pending.next]
  | escape =>
    rw [Pending.next] at h
    split_ifs at h
    · cases h
      exact Nat.zero_le 1
    · obtain ⟨d, -, h⟩ := Option.map_eq_some_iff.mp h
      cases h
      exact Nat.le_refl 1
  | unit first? digits =>
    obtain ⟨d, -, h⟩ := Option.bind_eq_some_iff.mp h
    by_cases short : (digits ++ [d]).length < 4
    · simp only [short, if_true] at h
      cases h
      exact Nat.zero_le 1
    · simp only [short, if_false] at h
      exact unit h
  | pair => grind [Pending.next]
  | pairEscape => grind [Pending.next]

theorem exists_of_unescapeFrom_cons {p : Pending} {c : Char} {cs read : List Char}
    (h : unescapeFrom p (c :: cs) = some read) :
    ∃ p' first later, p.next c = some (p', first) ∧ unescapeFrom p' cs = some later ∧
      read = first ++ later := by
  rw [unescapeFrom] at h
  obtain ⟨⟨p', first⟩, step, h⟩ := Option.bind_eq_some_iff.mp h
  obtain ⟨later, rest, rfl⟩ := Option.map_eq_some_iff.mp h
  exact ⟨p', first, later, step, rest, rfl⟩

theorem length_of_unescapeFrom {p : Pending} {cs read : List Char}
    (h : unescapeFrom p cs = some read) : read.length ≤ cs.length := by
  induction cs generalizing p read with
  | nil =>
    cases p <;> cases h
    exact Nat.le_refl 0
  | cons c cs ih =>
    obtain ⟨p', first, later, step, rest, rfl⟩ := exists_of_unescapeFrom_cons h
    have one := length_of_next step
    have fewer := ih rest
    rw [List.length_append, List.length_cons]
    omega

/-- A text that gives as many characters as it has is the string itself. -/
theorem plain_of_unescapeFrom {cs read : List Char} (h : unescapeFrom .nothing cs = some read)
    (same : read.length = cs.length) : read = cs ∧ ∀ c ∈ cs, Plain c := by
  induction cs generalizing read with
  | nil =>
    cases h
    exact ⟨rfl, fun _ h => by cases h⟩
  | cons c cs ih =>
    obtain ⟨p', first, later, step, rest, rfl⟩ := exists_of_unescapeFrom_cons h
    have fewer := length_of_unescapeFrom rest
    rw [List.length_append, List.length_cons] at same
    rw [Pending.next] at step
    split_ifs at step with backslash plain
    · cases step
      rw [List.length_nil] at same
      omega
    · cases step
      obtain ⟨rfl, plains⟩ := ih rest (by rw [List.length_singleton] at same; omega)
      exact ⟨rfl, List.forall_mem_cons.mpr ⟨plain, plains⟩⟩

/-- A comma is part of no escape. -/
theorem nothing_of_next_comma {p p' : Pending} {read : List Char}
    (h : p.next ',' = some (p', read)) : p = .nothing ∧ p' = .nothing ∧ read = [','] := by
  cases p with
  | nothing =>
    cases h
    exact ⟨rfl, rfl, rfl⟩
  | _ => cases h

theorem exists_of_unescapeFrom_comma {p : Pending} {xs ys read : List Char}
    (h : unescapeFrom p (xs ++ ',' :: ys) = some read) :
    ∃ first later, unescapeFrom p xs = some first ∧ unescapeFrom .nothing ys = some later ∧
      read = first ++ ',' :: later := by
  induction xs generalizing p read with
  | nil =>
    obtain ⟨p', first, later, step, rest, rfl⟩ := exists_of_unescapeFrom_cons h
    obtain ⟨rfl, rfl, rfl⟩ := nothing_of_next_comma step
    exact ⟨[], later, rfl, rest, rfl⟩
  | cons x xs ih =>
    obtain ⟨p', start, others, step, rest, rfl⟩ := exists_of_unescapeFrom_cons h
    obtain ⟨first, later, hx, hy, rfl⟩ := ih rest
    refine ⟨start ++ first, later, ?_, hy, by rw [List.append_assoc]⟩
    rw [unescapeFrom_cons step, hx]
    rfl

/-- Between a quote and the quote before a comma and a third one, a text is read as it is only if
all its characters stand for themselves. -/
theorem plain_of_closing {s : String} {after inside rest : List Char}
    (ends : closing (s.toList ++ '"' :: ',' :: '"' :: after) = some (inside, rest))
    (same : unescape inside = some s) : ∀ c ∈ s.toList, Plain c := by
  obtain ⟨read, unescaped, rfl⟩ := Option.map_eq_some_iff.mp same
  rw [String.toList_ofList] at ends ⊢
  have short := length_of_unescapeFrom unescaped
  have parted := eq_of_closing ends
  have whole (same : inside = read) : ∀ c ∈ read, Plain c := by
    subst same
    exact (plain_of_unescapeFrom unescaped rfl).2
  rcases List.append_eq_append_iff.mp parted with ⟨beyond, rfl, tail⟩ | ⟨missing, rfl, -⟩
  · -- The string was read on beyond the text: then it went on past the quote, as far as the comma.
    rcases beyond with _ | ⟨quote, beyond⟩
    · exact whole (List.append_nil _)
    · rw [List.cons_append, List.cons.injEq] at tail
      obtain ⟨rfl, tail⟩ := tail
      rcases beyond with _ | ⟨comma, beyond⟩
      · cases tail
      · rw [List.cons_append, List.cons.injEq] at tail
        obtain ⟨rfl, tail⟩ := tail
        have split : read ++ '"' :: ',' :: beyond = (read ++ ['"']) ++ ',' :: beyond := by simp
        rw [split] at unescaped
        obtain ⟨first, later, begun, ended, same⟩ := exists_of_unescapeFrom_comma unescaped
        have nothing_later : later = [] := by
          rcases beyond with _ | ⟨other, beyond⟩
          · cases ended
            rfl
          · rw [List.cons_append, List.cons.injEq] at tail
            obtain ⟨rfl, -⟩ := tail
            cases ended
        subst nothing_later
        rw [same, List.append_assoc] at begun
        obtain ⟨_, _, -, quoted, -⟩ := exists_of_unescapeFrom_comma begun
        cases quoted
  · rw [List.length_append] at short
    have none_missing : missing = [] := List.eq_nil_of_length_eq_zero (by omega)
    subst none_missing
    exact whole (List.append_nil _).symm

/-! ## Strings among the tokens of a text -/

theorem tokens_mark {c : Char} {mark : Token} (h : mark? c = some mark) (cs : List Char) :
    tokens (c :: cs) = (tokens cs).map (mark :: ·) := by
  have bare : blank c = false ∧ c ≠ '"' := by
    unfold mark? at h
    split at h <;> first | exact ⟨rfl, by decide⟩ | cases h
  rw [tokens]
  simp only [bare.1, Bool.false_eq_true, if_false, bare.2, h]

theorem tokens_mark_iff {c : Char} {mark : Token} (h : mark? c = some mark) (cs : List Char)
    (later : List Token) : tokens (c :: cs) = some (mark :: later) ↔ tokens cs = some later := by
  rw [tokens_mark h]
  simp

theorem tokens_quote (cs : List Char) : tokens ('"' :: cs) =
    (closing cs).bind fun p =>
      (unescape p.1).bind fun s => (tokens p.2).map (.string s :: ·) := by
  rw [tokens, if_neg (by decide), if_pos rfl]
  split
  · rename_i inside rest found
    rw [found, Option.bind_some]
    show _ = (unescape inside).bind fun s => (tokens rest).map (.string s :: ·)
    cases unescape inside with
    | none => rfl
    | some s => cases tokens rest <;> rfl
  · rename_i found
    rw [found]
    rfl

theorem tokens_string_iff {cs inside rest : List Char} {s : String}
    (ends : closing cs = some (inside, rest)) (read : unescape inside = some s)
    (later : List Token) :
    tokens ('"' :: cs) = some (.string s :: later) ↔ tokens rest = some later := by
  rw [tokens_quote, ends, Option.bind_some, read, Option.bind_some]
  simp

theorem tokens_plain_iff {s : String} (plain : ∀ c ∈ s.toList, Plain c) (rest : List Char)
    (later : List Token) :
    tokens ('"' :: (s.toList ++ '"' :: rest)) = some (.string s :: later) ↔
      tokens rest = some later :=
  tokens_string_iff (closing_of_plain plain rest) (unescape_of_plain plain) later

theorem tokens_escape_iff (s : String) (rest : List Char) (later : List Token) :
    tokens ('"' :: ((escape s).toList ++ '"' :: rest)) = some (.string s :: later) ↔
      tokens rest = some later :=
  tokens_string_iff (closing_escape s rest) (unescape_escape s) later

/-- A text that is put between quotes as it is, with a comma and another string behind it, stands
for itself exactly if its characters do. -/
theorem tokens_quoted_iff (s : String) (after : List Char) (later : List Token) :
    tokens ('"' :: (s.toList ++ '"' :: ',' :: '"' :: after)) = some (.string s :: later) ↔
      (∀ c ∈ s.toList, Plain c) ∧ tokens (',' :: '"' :: after) = some later := by
  constructor
  · intro h
    have cut := h
    rw [tokens_quote] at cut
    obtain ⟨⟨inside, rest⟩, ends, cut⟩ := Option.bind_eq_some_iff.mp cut
    obtain ⟨t, read, cut⟩ := Option.bind_eq_some_iff.mp cut
    obtain ⟨others, -, same⟩ := Option.map_eq_some_iff.mp cut
    obtain ⟨rfl, -⟩ : t = s ∧ others = later := by simpa using same
    have plain := plain_of_closing ends read
    exact ⟨plain, (tokens_plain_iff plain _ later).mp h⟩
  · rintro ⟨plain, rest⟩
    exact (tokens_plain_iff plain _ later).mpr rest

end Singletons.Json
