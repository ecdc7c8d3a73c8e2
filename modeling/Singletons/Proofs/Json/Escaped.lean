import Singletons.Proofs.Json.Strings
/-!
# Escaped bytes

The bytes of a string need not form characters. Whatever they are, the escaped form can stand
between quotes, the string ends at the quote behind it and at no other, and what is read between the
quotes are the bytes that were escaped.
-/

namespace Singletons.Json

/-! ## Between quotes -/

/-- What follows a backslash in an escape of two characters. -/
def escapeLetters : List UInt8 := ['"', '\\', '/', 'b', 'f', 'n', 'r', 't'].map Char.toUInt8

def hexDigits : List UInt8 := "0123456789abcdefABCDEF".toList.map Char.toUInt8

/-- What can stand between the quotes of a string: bytes that stand for themselves, and whole
escapes. -/
inductive Inside : List UInt8 → Prop where
  | nil : Inside []
  | plain {b : UInt8} {bs : List UInt8} (visible : 0x20 ≤ b.toNat) (quote : b ≠ '"'.toUInt8)
      (backslash : b ≠ '\\'.toUInt8) (rest : Inside bs) : Inside (b :: bs)
  | short {b : UInt8} {bs : List UInt8} (letter : b ∈ escapeLetters) (rest : Inside bs) :
      Inside ('\\'.toUInt8 :: b :: bs)
  | unit {digits bs : List UInt8} (four : digits.length = 4) (hex : ∀ d ∈ digits, d ∈ hexDigits)
      (rest : Inside bs) : Inside ('\\'.toUInt8 :: 'u'.toUInt8 :: (digits ++ bs))

theorem le_of_mem_escapeLetters {b : UInt8} (h : b ∈ escapeLetters) : 0x20 ≤ b.toNat := by
  have checked : escapeLetters.all (0x20 ≤ ·.toNat) = true := by decide
  exact of_decide_eq_true (List.all_eq_true.mp checked b h)

theorem plain_of_mem_hexDigits {d : UInt8} (h : d ∈ hexDigits) :
    0x20 ≤ d.toNat ∧ d ≠ '"'.toUInt8 ∧ d ≠ '\\'.toUInt8 := by
  have checked : hexDigits.all
      (fun d => 0x20 ≤ d.toNat ∧ d ≠ '"'.toUInt8 ∧ d ≠ '\\'.toUInt8) = true := by decide
  exact of_decide_eq_true (List.all_eq_true.mp checked d h)

namespace Inside

theorem le_of_mem {bs : List UInt8} (h : Inside bs) : ∀ b ∈ bs, 0x20 ≤ b.toNat := by
  induction h with
  | nil => exact List.forall_mem_nil _
  | plain visible _ _ _ ih => exact List.forall_mem_cons.mpr ⟨visible, ih⟩
  | short letter _ ih =>
    simp only [List.forall_mem_cons]
    exact ⟨by decide, le_of_mem_escapeLetters letter, ih⟩
  | unit _ hex _ ih =>
    simp only [List.forall_mem_cons, List.forall_mem_append]
    exact ⟨by decide, by decide, fun d hd => (plain_of_mem_hexDigits (hex d hd)).1, ih⟩

/-- The end of a string is found by taking each byte for the character of its number. -/
theorem closing_map {bs : List UInt8} (h : Inside bs) (after : List Char) :
    closing (bs.map .ofUInt8 ++ '"' :: after) = some (bs.map .ofUInt8, after) := by
  have skip (c : Char) (cs : List Char) : closing ('\\' :: c :: cs) =
      (closing cs).map fun ends => ('\\' :: c :: ends.1, ends.2) := rfl
  have backslash : Char.ofUInt8 '\\'.toUInt8 = '\\' := rfl
  induction h with
  | nil => rfl
  | plain _ quote backslash _ ih =>
    rw [List.map_cons, List.cons_append, closing_cons (ofUInt8_ne quote) (ofUInt8_ne backslash), ih]
    rfl
  | short _ _ ih =>
    simp only [List.map_cons, List.cons_append, backslash, skip, ih, Option.map_some]
  | @unit digits bs _ hex _ ih =>
    -- Only the letter behind the backslash is skipped, so the digits must not end the string.
    have bare : ∀ c ∈ digits.map Char.ofUInt8, c ≠ '"' ∧ c ≠ '\\' := by
      rw [List.forall_mem_map]
      intro d hd
      obtain ⟨-, quote, backslash⟩ := plain_of_mem_hexDigits (hex d hd)
      exact ⟨ofUInt8_ne quote, ofUInt8_ne backslash⟩
    simp only [List.map_cons, List.map_append, List.cons_append, List.append_assoc, backslash,
      skip, closing_append bare, ih, Option.map_some]

/-- A string ends at the quote behind its inside, and at no other. -/
theorem unique {xs ys after beyond : List UInt8} (hx : Inside xs) (hy : Inside ys)
    (same : xs ++ '"'.toUInt8 :: after = ys ++ '"'.toUInt8 :: beyond) :
    xs = ys ∧ after = beyond := by
  have ends (bs rest : List UInt8) : (bs ++ '"'.toUInt8 :: rest).map Char.ofUInt8 =
      bs.map .ofUInt8 ++ '"' :: rest.map .ofUInt8 := List.map_append
  have found := hx.closing_map (after.map .ofUInt8)
  rw [← ends, same, ends, hy.closing_map, Option.some.injEq, Prod.mk.injEq] at found
  obtain ⟨inside, rest⟩ := found
  exact ⟨(List.map_inj_right ofUInt8_inj).mp inside.symm,
    (List.map_inj_right ofUInt8_inj).mp rest.symm⟩

end Inside

theorem mem_of_shortEscape? {c d : Char} (h : shortEscape? d = some c) :
    d.toUInt8 ∈ escapeLetters := by
  unfold shortEscape? at h
  split at h
  case h_9 => cases h
  all_goals decide

theorem inside_escapeByte (b : UInt8) {bs : List UInt8} (rest : Inside bs) :
    Inside (escapeByte b ++ bs) := by
  obtain ⟨d, short, same⟩ | ⟨control, same⟩ | ⟨⟨visible, quote, backslash⟩, same⟩ :=
    escapeChar_cases (.ofUInt8 b)
  · rw [escapeByte, same]
    exact .short (mem_of_shortEscape? short) rest
  · have digit : ∀ k < 16, (Nat.digitChar k).toUInt8 ∈ hexDigits := by decide
    have hex : ∀ d ∈ ['0', '0', Nat.digitChar ((Char.ofUInt8 b).toNat / 16),
        Nat.digitChar ((Char.ofUInt8 b).toNat % 16)].map Char.toUInt8, d ∈ hexDigits := by
      simp only [List.map_cons, List.forall_mem_cons]
      exact ⟨by decide, by decide, digit _ (by omega), digit _ (by omega), List.forall_mem_nil _⟩
    rw [escapeByte, same]
    exact .unit rfl hex rest
  · rw [escapeByte, same, List.map_singleton, toUInt8_ofUInt8]
    rw [toNat_ofUInt8] at visible
    apply Inside.plain visible _ _ rest
    · rintro rfl
      exact quote rfl
    · rintro rfl
      exact backslash rfl

theorem inside_escapeBytes (s : List UInt8) : Inside (escapeBytes s) := by
  induction s with
  | nil => exact .nil
  | cons b s ih => exact inside_escapeByte b ih

/-! ## Reading bytes -/

/-- Reads one byte between the quotes. Bytes from 0x80 up belong to no escape. -/
def Pending.nextByte (p : Pending) (b : UInt8) : Option (Pending × List UInt8) :=
  if b.toNat < 0x80 then (p.next (.ofUInt8 b)).map fun (q, read) => (q, utf8 read)
  else match p with
    | nothing => some (nothing, [b])
    | _ => none

/-- Reads on between the quotes, byte by byte. -/
def unescapeBytesFrom : Pending → List UInt8 → Option (List UInt8)
  | .nothing, [] => some []
  | _, [] => none
  | p, b :: bs => (p.nextByte b).bind fun (q, read) => (unescapeBytesFrom q bs).map (read ++ ·)

/-- The bytes that are written between two quotes. -/
def unescapeBytes (bs : List UInt8) : Option (List UInt8) := unescapeBytesFrom .nothing bs

theorem unescapeBytesFrom_cons {p q : Pending} {b : UInt8} {read : List UInt8}
    (h : p.nextByte b = some (q, read)) (bs : List UInt8) :
    unescapeBytesFrom p (b :: bs) = (unescapeBytesFrom q bs).map (read ++ ·) := by
  rw [unescapeBytesFrom, h]
  rfl

theorem hexDigit?_of_le {c : Char} (high : 0x80 ≤ c.toNat) : hexDigit? c = none := by
  have above (d : Char) (low : d.toNat < 0x80) : ¬ c ≤ d := by
    intro below
    have : c.toNat ≤ d.toNat := below
    omega
  simp (disch := decide) only [hexDigit?, above, and_false, if_false]

theorem shortEscape?_of_le {c : Char} (high : 0x80 ≤ c.toNat) : shortEscape? c = none := by
  unfold shortEscape?
  split
  case h_9 => rfl
  all_goals exact absurd high (by decide)

/-- A character from 0x80 up belongs to no escape. -/
theorem nothing_of_next_of_le {p q : Pending} {c : Char} {read : List Char}
    (high : 0x80 ≤ c.toNat) (h : p.next c = some (q, read)) :
    p = .nothing ∧ q = .nothing ∧ read = [c] := by
  have backslash : c ≠ '\\' := ne_of_le_of_lt high (by decide)
  have quote : c ≠ '"' := ne_of_le_of_lt high (by decide)
  have letter : c ≠ 'u' := ne_of_le_of_lt high (by decide)
  cases p with
  | nothing =>
    have plain : Plain c := ⟨by omega, quote, backslash⟩
    rw [Pending.next, if_neg backslash, if_pos plain] at h
    cases h
    exact ⟨rfl, rfl, rfl⟩
  | escape =>
    rw [Pending.next, if_neg letter, shortEscape?_of_le high] at h
    cases h
  | unit first? digits =>
    rw [Pending.next, hexDigit?_of_le high] at h
    cases h
  | pair first =>
    rw [Pending.next, if_neg backslash] at h
    cases h
  | pairEscape first =>
    rw [Pending.next, if_neg letter] at h
    cases h

theorem unescapeBytesFrom_of_le {high : List UInt8} (le : ∀ b ∈ high, 0x80 ≤ b.toNat)
    (bs : List UInt8) : unescapeBytesFrom .nothing (high ++ bs) =
      (unescapeBytesFrom .nothing bs).map (high ++ ·) := by
  induction high with
  | nil => simp
  | cons b high ih =>
    obtain ⟨first, rest⟩ := List.forall_mem_cons.mp le
    have read : Pending.nothing.nextByte b = some (.nothing, [b]) := by
      rw [Pending.nextByte, if_neg (Nat.not_lt_of_le first)]
    rw [List.cons_append, unescapeBytesFrom_cons read, ih rest, Option.map_map]
    rfl

theorem unescapeBytesFrom_utf8EncodeChar {p q : Pending} {c : Char} {read : List Char}
    (h : p.next c = some (q, read)) (bs : List UInt8) :
    unescapeBytesFrom p (String.utf8EncodeChar c ++ bs) =
      (unescapeBytesFrom q bs).map (utf8 read ++ ·) := by
  -- A longer character changes nothing in the reader, and each of its bytes is read as it is.
  by_cases ascii : c.toNat < 0x80
  · have same := ofUInt8_toUInt8 ascii
    have low : c.toUInt8.toNat < 0x80 := by
      rw [← toNat_ofUInt8, same]
      exact ascii
    have step : p.nextByte c.toUInt8 = some (q, utf8 read) := by
      unfold Pending.nextByte
      rw [if_pos low, same, h]
      rfl
    rw [utf8EncodeChar_of_lt ascii]
    exact unescapeBytesFrom_cons step bs
  · have high := Nat.le_of_not_lt ascii
    obtain ⟨rfl, rfl, rfl⟩ := nothing_of_next_of_le high h
    rw [unescapeBytesFrom_of_le (le_of_mem_utf8EncodeChar high), utf8, List.flatMap_singleton]

/-- What is read of characters is read of their bytes. -/
theorem unescapeBytesFrom_utf8 {p : Pending} {cs read : List Char}
    (h : unescapeFrom p cs = some read) (bs : List UInt8) :
    unescapeBytesFrom p (utf8 cs ++ bs) =
      (unescapeBytesFrom .nothing bs).map (utf8 read ++ ·) := by
  induction cs generalizing p read with
  | nil =>
    cases p <;> cases h
    simp [utf8]
  | cons c cs ih =>
    obtain ⟨q, first, later, step, rest, rfl⟩ := exists_of_unescapeFrom_cons h
    have encoded : utf8 (c :: cs) = String.utf8EncodeChar c ++ utf8 cs := rfl
    rw [encoded, List.append_assoc, unescapeBytesFrom_utf8EncodeChar step, ih rest, utf8_append]
    simp [Function.comp_def]

/-! ## What is escaped is read back -/

theorem escapeByte_of_lt {b : UInt8} (ascii : b.toNat < 0x80) :
    escapeByte b = utf8 (escapeChar (.ofUInt8 b)) :=
  (utf8_of_lt (lt_of_mem_escapeChar (toNat_ofUInt8 b ▸ ascii))).symm

theorem unescapeBytesFrom_escapeByte (b : UInt8) (bs : List UInt8) :
    unescapeBytesFrom .nothing (escapeByte b ++ bs) =
      (unescapeBytesFrom .nothing bs).map (b :: ·) := by
  -- Below 0x80 the byte and its escaped form are texts, which are read by characters.
  by_cases ascii : b.toNat < 0x80
  · have read : unescapeFrom .nothing (escapeChar (.ofUInt8 b)) = some [.ofUInt8 b] := by
      rw [← List.append_nil (escapeChar _), unescapeFrom_escapeChar]
      rfl
    have encoded : utf8 [Char.ofUInt8 b] = [b] := by
      rw [utf8, List.flatMap_singleton, utf8EncodeChar_of_lt (toNat_ofUInt8 b ▸ ascii),
        toUInt8_ofUInt8]
    rw [escapeByte_of_lt ascii, unescapeBytesFrom_utf8 read, encoded]
    rfl
  · have high := Nat.le_of_not_lt ascii
    rw [escapeByte_of_le high, unescapeBytesFrom_of_le (List.forall_mem_singleton.mpr high)]
    rfl

theorem unescapeBytes_escapeBytes (s : List UInt8) : unescapeBytes (escapeBytes s) = some s := by
  unfold unescapeBytes
  induction s with
  | nil => rfl
  | cons b s ih =>
    rw [escapeBytes, List.flatMap_cons, unescapeBytesFrom_escapeByte, ← escapeBytes, ih]
    rfl

theorem escapeBytes_inj {s t : List UInt8} : escapeBytes s = escapeBytes t ↔ s = t := by
  constructor
  · intro same
    apply Option.some.inj
    rw [← unescapeBytes_escapeBytes s, same, unescapeBytes_escapeBytes]
  · rintro rfl
    rfl

/-- Whatever bytes a string has, its escaped form can stand between quotes and has no control byte
in it; a string that begins before it ends behind it, whatever follows; its bytes are read from the
escaped form, which no other string has. The bytes of a text are escaped in this way, and the text
is read from what its escaped form is as a text. -/
theorem escapeBytes_faithful :
    (∀ s : List UInt8,
      Inside (escapeBytes s) ∧ (∀ b ∈ escapeBytes s, 0x20 ≤ b.toNat) ∧
      (∀ inside after beyond,
        Inside inside ∧
            inside ++ '"'.toUInt8 :: beyond = escapeBytes s ++ '"'.toUInt8 :: after ↔
          inside = escapeBytes s ∧ beyond = after) ∧
      unescapeBytes (escapeBytes s) = some s ∧
      ∀ t, escapeBytes t = escapeBytes s ↔ t = s) ∧
    ∀ text : String,
      utf8 (escape text).toList = escapeBytes (utf8 text.toList) ∧
      unescape (escape text).toList = some text := by
  constructor
  · intro s
    have whole := inside_escapeBytes s
    refine ⟨whole, whole.le_of_mem, ?_, unescapeBytes_escapeBytes s, fun t => escapeBytes_inj⟩
    intro inside after beyond
    constructor
    · rintro ⟨h, same⟩
      exact h.unique whole same
    · rintro ⟨rfl, rfl⟩
      exact ⟨whole, rfl⟩
  · intro text
    refine ⟨?_, unescape_escape text⟩
    rw [toList_escape, escapeBytes_utf8]

/-- A control byte before digits, a backslash before a letter and two bytes that form no character:
no escape takes in what stands behind it, and nothing is lost. -/
theorem escapes_kept_apart :
    escapeBytes [0x01, 0x32, 0x5c, 0x6e, 0xc3, 0xff] =
        utf8 "\\u00012\\\\n".toList ++ [0xc3, 0xff] ∧
      unescapeBytes (utf8 "\\u00012\\\\n".toList ++ [0xc3, 0xff]) =
        some [0x01, 0x32, 0x5c, 0x6e, 0xc3, 0xff] := by
  have written : escapeBytes [0x01, 0x32, 0x5c, 0x6e, 0xc3, 0xff] =
      utf8 "\\u00012\\\\n".toList ++ [0xc3, 0xff] := by decide
  obtain ⟨-, -, -, read, -⟩ := escapeBytes_faithful.1 [0x01, 0x32, 0x5c, 0x6e, 0xc3, 0xff]
  exact ⟨written, written ▸ read⟩

end Singletons.Json
