/-!
# Characters and their bytes

A character below 0x80 is one byte, which has its number. Any other is a row of bytes from 0x80 up.
-/

namespace Singletons.Json

/-- The bytes of a text. -/
def utf8 (cs : List Char) : List UInt8 := cs.flatMap String.utf8EncodeChar

theorem utf8_append (cs ds : List Char) : utf8 (cs ++ ds) = utf8 cs ++ utf8 ds :=
  List.flatMap_append

theorem toNat_ofUInt8 (b : UInt8) : (Char.ofUInt8 b).toNat = b.toNat := UInt8.toNat_toUInt32 b

theorem toUInt8_ofUInt8 (b : UInt8) : (Char.ofUInt8 b).toUInt8 = b := by
  apply UInt8.toNat_inj.mp
  calc b.toUInt32.toUInt8.toNat
    _ = b.toNat % 256 := by rw [UInt32.toNat_toUInt8, UInt8.toNat_toUInt32]
    _ = b.toNat := Nat.mod_eq_of_lt b.toNat_lt

theorem ofUInt8_toUInt8 {c : Char} (ascii : c.toNat < 0x80) : Char.ofUInt8 c.toUInt8 = c := by
  have fits : c.val.toNat < 256 := Nat.lt_trans ascii (by decide)
  apply Char.ext
  apply UInt32.toNat_inj.mp
  calc c.toUInt8.toUInt32.toNat
    _ = c.val.toNat % 256 := by rw [UInt8.toNat_toUInt32, Char.toUInt8, UInt32.toNat_toUInt8]
    _ = c.val.toNat := Nat.mod_eq_of_lt fits

theorem ofUInt8_inj (b d : UInt8) (h : Char.ofUInt8 b = .ofUInt8 d) : b = d := by
  rw [← toUInt8_ofUInt8 b, h, toUInt8_ofUInt8]

theorem ofUInt8_ne {b : UInt8} {c : Char} (h : b ≠ c.toUInt8) : Char.ofUInt8 b ≠ c := by
  intro same
  apply h
  rw [← same, toUInt8_ofUInt8]

theorem ne_of_le_of_lt {c d : Char} (high : 0x80 ≤ c.toNat) (low : d.toNat < 0x80) : c ≠ d := by
  rintro rfl
  omega

theorem utf8EncodeChar_of_lt {c : Char} (ascii : c.toNat < 0x80) :
    String.utf8EncodeChar c = [c.toUInt8] := by
  have low : c.val.toNat ≤ 0x7f := Nat.le_of_lt_succ ascii
  rw [String.utf8EncodeChar, if_pos low]
  rfl

theorem le_of_mem_utf8EncodeChar {c : Char} (high : 0x80 ≤ c.toNat) :
    ∀ b ∈ String.utf8EncodeChar c, 0x80 ≤ b.toNat := by
  have long : ¬ c.val.toNat ≤ 0x7f := Nat.not_le_of_lt high
  -- Each byte is a part of the number with a mark of at least 0x80 above it.
  have marked (n m k : Nat) (pos : 0 < m) (mark : 0x80 ≤ k) (fits : m + k ≤ 0x100) :
      0x80 ≤ (UInt8.ofNat (n % m + k)).toNat := by
    have := Nat.mod_lt n pos
    rw [UInt8.toNat_ofNat', Nat.mod_eq_of_lt (by omega)]
    omega
  rw [String.utf8EncodeChar, if_neg long]
  repeat' split
  all_goals
    simp (disch := decide) only [List.forall_mem_cons, List.not_mem_nil, false_implies,
      implies_true, and_self, marked]

theorem utf8_of_lt {cs : List Char} (ascii : ∀ c ∈ cs, c.toNat < 0x80) :
    utf8 cs = cs.map Char.toUInt8 := by
  induction cs with
  | nil => rfl
  | cons c cs ih =>
    obtain ⟨first, rest⟩ := List.forall_mem_cons.mp ascii
    rw [utf8, List.flatMap_cons, utf8EncodeChar_of_lt first, ← utf8, ih rest]
    rfl

end Singletons.Json
