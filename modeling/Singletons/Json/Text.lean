import Singletons.Json.Bytes
/-!
# Text inside JSON strings

Quotes, backslashes and control characters are escaped; all else stands for itself. Texts are
escaped byte by byte, also those whose bytes form no characters. Where they do, the bytes of an
escaped text are again those of characters.
-/

namespace Singletons.Json

/-- How a character is written between the quotes of a JSON string. -/
def escapeChar (c : Char) : List Char :=
  if c = '\"' then ['\\', '\"']
  else if c = '\\' then ['\\', '\\']
  else if c = '\x08' then ['\\', 'b']
  else if c = '\x0c' then ['\\', 'f']
  else if c = '\n' then ['\\', 'n']
  else if c = '\r' then ['\\', 'r']
  else if c = '\t' then ['\\', 't']
  else if c.toNat < 0x20 then
    ['\\', 'u', '0', '0', Nat.digitChar (c.toNat / 16), Nat.digitChar (c.toNat % 16)]
  else [c]

/-- A byte is written like the character of the same number, as one byte for each character. -/
def escapeByte (b : UInt8) : List UInt8 := (escapeChar (.ofUInt8 b)).map Char.toUInt8

def escapeBytes (bs : List UInt8) : List UInt8 := bs.flatMap escapeByte

theorem escapeBytes_append (bs cs : List UInt8) :
    escapeBytes (bs ++ cs) = escapeBytes bs ++ escapeBytes cs := List.flatMap_append

theorem lt_of_mem_escapeChar {c : Char} (ascii : c.toNat < 0x80) :
    ∀ d ∈ escapeChar c, d.toNat < 0x80 := by
  have digits : ∀ k < 16, (Nat.digitChar k).toNat < 0x80 := by decide
  fun_cases escapeChar c with
  | case8 _ _ _ _ _ _ _ control =>
    have high := digits (c.toNat / 16) (by omega)
    have low := digits (c.toNat % 16) (by omega)
    simp only [List.forall_mem_cons]
    exact ⟨by decide, by decide, by decide, by decide, high, low, List.forall_mem_nil _⟩
  | case9 => exact List.forall_mem_singleton.mpr ascii
  | _ =>
    simp only [List.forall_mem_cons]
    exact ⟨by decide, by decide, List.forall_mem_nil _⟩

theorem escapeChar_of_le {c : Char} (high : 0x80 ≤ c.toNat) : escapeChar c = [c] := by
  have other (d : Char) : d.toNat < 0x80 → c ≠ d := ne_of_le_of_lt high
  simp (disch := decide) only [escapeChar, other, if_false]
  exact if_neg (by omega)

theorem escapeByte_of_le {b : UInt8} (high : 0x80 ≤ b.toNat) : escapeByte b = [b] := by
  rw [escapeByte, escapeChar_of_le (toNat_ofUInt8 b ▸ high), List.map_singleton, toUInt8_ofUInt8]

theorem escapeBytes_of_le {bs : List UInt8} (high : ∀ b ∈ bs, 0x80 ≤ b.toNat) :
    escapeBytes bs = bs := by
  induction bs with
  | nil => rfl
  | cons b bs ih =>
    obtain ⟨first, rest⟩ := List.forall_mem_cons.mp high
    rw [escapeBytes, List.flatMap_cons, escapeByte_of_le first, ← escapeBytes, ih rest]
    rfl

theorem escapeBytes_utf8EncodeChar (c : Char) :
    escapeBytes (String.utf8EncodeChar c) = utf8 (escapeChar c) := by
  by_cases ascii : c.toNat < 0x80
  · rw [utf8EncodeChar_of_lt ascii, utf8_of_lt (lt_of_mem_escapeChar ascii), escapeBytes,
      List.flatMap_singleton, escapeByte, ofUInt8_toUInt8 ascii]
  · have high := Nat.le_of_not_lt ascii
    rw [escapeBytes_of_le (le_of_mem_utf8EncodeChar high), escapeChar_of_le high, utf8,
      List.flatMap_singleton]

theorem escapeBytes_utf8 (cs : List Char) :
    escapeBytes (utf8 cs) = utf8 (cs.flatMap escapeChar) := by
  induction cs with
  | nil => rfl
  | cons c cs ih =>
    calc escapeBytes (utf8 (c :: cs))
      _ = escapeBytes (String.utf8EncodeChar c) ++ escapeBytes (utf8 cs) := escapeBytes_append _ _
      _ = utf8 (escapeChar c) ++ utf8 (cs.flatMap escapeChar) := by
        rw [escapeBytes_utf8EncodeChar, ih]
      _ = utf8 ((c :: cs).flatMap escapeChar) := (utf8_append _ _).symm

/-- How a text is written between the quotes of a JSON string. -/
def escape (s : String) : String :=
  .ofByteArray (escapeBytes (utf8 s.toList)).toByteArray
    (escapeBytes_utf8 s.toList ▸ ByteArray.isValidUTF8_utf8Encode)

theorem toList_escape (s : String) : (escape s).toList = s.toList.flatMap escapeChar := by
  have same : escape s = .ofList (s.toList.flatMap escapeChar) := by
    rw [← String.toByteArray_inj, String.toByteArray_ofList, List.utf8Encode]
    exact congrArg List.toByteArray (escapeBytes_utf8 s.toList)
  rw [same, String.toList_ofList]

end Singletons.Json
