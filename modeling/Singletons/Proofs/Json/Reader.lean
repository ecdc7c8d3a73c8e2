import Singletons.Json.Text
/-!
# Reading JSON

A JSON document is read in two passes: the text is cut into tokens, and these are put together by a
machine that holds the open arrays and objects. The tokens of a document determine its value and the
other way round, so a text is a document of a value exactly if it is cut into the value's tokens.
-/

namespace Singletons.Json

/-- A value that a document denotes. Numbers are kept as they are written, and the members of an
object in their order. -/
inductive Value where
  | null
  | bool (b : Bool)
  | number (digits : List Char)
  | string (s : String)
  | array (items : List Value)
  | object (members : List (String × Value))

inductive Token where
  | null
  | bool (b : Bool)
  | number (digits : List Char)
  | string (s : String)
  | comma
  | colon
  | openArray
  | closeArray
  | openObject
  | closeObject
  deriving DecidableEq

/-! ## Inside strings -/

/-- What the reader of a string has seen of an escape that is not complete. -/
inductive Pending where
  | nothing
  | escape
  /-- Digits of a code unit, after the first unit of a pair if there was one. -/
  | unit (first? : Option Nat) (digits : List Nat)
  /-- The first unit of a pair, which needs a second one. -/
  | pair (first : Nat)
  | pairEscape (first : Nat)

/-- What stands for a character behind a backslash. -/
def shortEscape? : Char → Option Char
  | '"' => some '"'
  | '\\' => some '\\'
  | '/' => some '/'
  | 'b' => some '\x08'
  | 'f' => some '\x0c'
  | 'n' => some '\n'
  | 'r' => some '\r'
  | 't' => some '\t'
  | _ => none

def hexDigit? (c : Char) : Option Nat :=
  if '0' ≤ c ∧ c ≤ '9' then some (c.toNat - '0'.toNat)
  else if 'a' ≤ c ∧ c ≤ 'f' then some (c.toNat - 'a'.toNat + 10)
  else if 'A' ≤ c ∧ c ≤ 'F' then some (c.toNat - 'A'.toNat + 10)
  else none

/-- A character that stands for itself in a string. -/
def Plain (c : Char) : Prop := 0x20 ≤ c.toNat ∧ c ≠ '"' ∧ c ≠ '\\'

instance (c : Char) : Decidable (Plain c) := inferInstanceAs (Decidable (_ ∧ _ ∧ _))

/-- Ends a code unit. Units from D800 to DBFF begin a pair, those from DC00 to DFFF end one. -/
def endUnit (first? : Option Nat) (unit : Nat) : Option (Pending × List Char) :=
  match first? with
  | some first =>
    if 0xDC00 ≤ unit ∧ unit ≤ 0xDFFF then
      some (.nothing, [Char.ofNat (0x10000 + (first - 0xD800) * 0x400 + (unit - 0xDC00))])
    else none
  | none =>
    if 0xD800 ≤ unit ∧ unit ≤ 0xDBFF then some (.pair unit, [])
    else if 0xDC00 ≤ unit ∧ unit ≤ 0xDFFF then none
    else some (.nothing, [Char.ofNat unit])

/-- Reads one character between the quotes; with it a character of the string may be complete. -/
def Pending.next : Pending → Char → Option (Pending × List Char)
  | nothing, c =>
    if c = '\\' then some (escape, [])
    else if Plain c then some (nothing, [c])
    else none
  | escape, c =>
    if c = 'u' then some (unit none [], []) else (shortEscape? c).map fun d => (nothing, [d])
  | unit first? digits, c =>
    (hexDigit? c).bind fun d =>
      let digits := digits ++ [d]
      if digits.length < 4 then some (unit first? digits, [])
      else endUnit first? (digits.foldl (fun n d => 16 * n + d) 0)
  | pair first, c => if c = '\\' then some (pairEscape first, []) else none
  | pairEscape first, c => if c = 'u' then some (unit (some first) [], []) else none

/-- Reads on between the quotes. A string that breaks off within an escape is not read. -/
def unescapeFrom : Pending → List Char → Option (List Char)
  | .nothing, [] => some []
  | _, [] => none
  | p, c :: cs => (p.next c).bind fun (p, read) => (unescapeFrom p cs).map (read ++ ·)

/-- The string that is written between two quotes. -/
def unescape (cs : List Char) : Option String := (unescapeFrom .nothing cs).map String.ofList

/-- Parts a text at the quote that ends a string. -/
def closing : List Char → Option (List Char × List Char)
  | [] => none
  | '"' :: rest => some ([], rest)
  | '\\' :: c :: rest => (closing rest).map fun (inside, rest) => ('\\' :: c :: inside, rest)
  | c :: rest => (closing rest).map fun (inside, rest) => (c :: inside, rest)

theorem eq_of_closing {cs inside rest : List Char} (h : closing cs = some (inside, rest)) :
    cs = inside ++ '"' :: rest := by
  induction cs using closing.induct generalizing inside with
  | case1 => simp [closing] at h
  | case2 tail =>
    simp only [closing, Option.some.injEq, Prod.mk.injEq] at h
    obtain ⟨rfl, rfl⟩ := h
    rfl
  | case3 c tail ih =>
    obtain ⟨⟨i, r⟩, found, same⟩ := Option.map_eq_some_iff.mp h
    obtain ⟨rfl, rfl⟩ := Prod.mk.inj same
    rw [ih found]
    rfl
  | case4 c tail _ _ ih =>
    rw [closing] at h
    · obtain ⟨⟨i, r⟩, found, same⟩ := Option.map_eq_some_iff.mp h
      obtain ⟨rfl, rfl⟩ := Prod.mk.inj same
      rw [ih found]
      rfl
    · assumption
    · assumption

/-! ## Tokens -/

def blank (c : Char) : Bool := c = ' ' || c = '\t' || c = '\n' || c = '\r'

/-- A character of the words and numbers that stand outside of strings. -/
def wordy (c : Char) : Bool := c.isAlphanum || c = '-' || c = '+' || c = '.'

/-- One or more digits. -/
def isDigits (cs : List Char) : Bool := !cs.isEmpty && cs.all Char.isDigit

/-- An exponent with its letter, or nothing. -/
def isExponent : List Char → Bool
  | [] => true
  | e :: '+' :: cs => (e = 'e' || e = 'E') && isDigits cs
  | e :: '-' :: cs => (e = 'e' || e = 'E') && isDigits cs
  | e :: cs => (e = 'e' || e = 'E') && isDigits cs

/-- A fraction with its point, or nothing, and then an exponent. -/
def isFraction : List Char → Bool
  | '.' :: cs => isDigits (cs.takeWhile Char.isDigit) && isExponent (cs.dropWhile Char.isDigit)
  | cs => isExponent cs

/-- A number without sign: it begins with a zero only if that is all of its integer part. -/
def isUnsigned : List Char → Bool
  | '0' :: cs => isFraction cs
  | cs => isDigits (cs.takeWhile Char.isDigit) && isFraction (cs.dropWhile Char.isDigit)

def isNumber : List Char → Bool
  | '-' :: cs => isUnsigned cs
  | cs => isUnsigned cs

def word? (cs : List Char) : Option Token :=
  if cs = "null".toList then some .null
  else if cs = "true".toList then some (.bool true)
  else if cs = "false".toList then some (.bool false)
  else if isNumber cs then some (.number cs)
  else none

def mark? : Char → Option Token
  | ',' => some .comma
  | ':' => some .colon
  | '[' => some .openArray
  | ']' => some .closeArray
  | '\x7b' => some .openObject
  | '\x7d' => some .closeObject
  | _ => none

/-- Cuts a text into tokens. -/
def tokens : List Char → Option (List Token)
  | [] => some []
  | c :: cs =>
    if blank c then tokens cs
    else if c = '"' then
      match _ : closing cs with
      | some (inside, rest) => do
        let s ← unescape inside
        let later ← tokens rest
        return .string s :: later
      | none => none
    else match mark? c with
      | some mark => (tokens cs).map (mark :: ·)
      | none => do
        let first ← word? (c :: cs.takeWhile wordy)
        let later ← tokens (cs.dropWhile wordy)
        return first :: later
termination_by cs => cs.length
decreasing_by
  · simp
  · have := congrArg List.length (eq_of_closing ‹_›)
    simp only [List.length_append, List.length_cons] at this ⊢
    omega
  · simp
  · have := (List.dropWhile_suffix wordy (l := cs)).length_le
    simp only [List.length_cons]
    omega

/-! ## Values -/

/-- An open array with the items before the one that is read, or an open object with the members
before the one that is read and the key of this one. -/
inductive Frame where
  | array (items : List Value)
  | object (members : List (String × Value)) (key : String)

/-- What the machine expects next, and the arrays and objects that are open around it. -/
inductive State where
  | value (outer : List Frame)
  /-- An array was opened. -/
  | item (outer : List Frame)
  /-- An object was opened. -/
  | member (outer : List Frame)
  | key (members : List (String × Value)) (outer : List Frame)
  | colon (members : List (String × Value)) (key : String) (outer : List Frame)
  /-- A value is complete. -/
  | done (v : Value) (outer : List Frame)

namespace State

/-- Where the first token of a value leads. -/
def begins (outer : List Frame) : Token → Option State
  | .null => some (done .null outer)
  | .bool b => some (done (.bool b) outer)
  | .number digits => some (done (.number digits) outer)
  | .string s => some (done (.string s) outer)
  | .openArray => some (item outer)
  | .openObject => some (member outer)
  | _ => none

def next : State → Token → Option State
  | value outer, t => begins outer t
  | item outer, .closeArray => some (done (.array []) outer)
  | item outer, t => begins (.array [] :: outer) t
  | member outer, .closeObject => some (done (.object []) outer)
  | member outer, .string k => some (colon [] k outer)
  | key members outer, .string k => some (colon members k outer)
  | colon members k outer, .colon => some (value (.object members k :: outer))
  | done v (.array items :: outer), .comma => some (value (.array (items ++ [v]) :: outer))
  | done v (.array items :: outer), .closeArray => some (done (.array (items ++ [v])) outer)
  | done v (.object members k :: outer), .comma => some (key (members ++ [(k, v)]) outer)
  | done v (.object members k :: outer), .closeObject =>
    some (done (.object (members ++ [(k, v)])) outer)
  | _, _ => none

end State

/-- The value that a document denotes. -/
def parse (document : String) : Option Value := do
  let cut ← tokens document.toList
  match ← cut.foldlM State.next (.value []) with
  | .done v [] => some v
  | _ => none

mutual

/-- The tokens that a value is written with. -/
def Value.tokens : Value → List Token
  | .null => [.null]
  | .bool b => [.bool b]
  | .number digits => [.number digits]
  | .string s => [.string s]
  | .array [] => [.openArray, .closeArray]
  | .array (v :: items) => .openArray :: (v.tokens ++ moreItems items)
  | .object [] => [.openObject, .closeObject]
  | .object ((k, v) :: members) =>
    .openObject :: .string k :: .colon :: (v.tokens ++ moreMembers members)

/-- The rest of an array, behind an item. -/
def moreItems : List Value → List Token
  | [] => [.closeArray]
  | v :: items => .comma :: (v.tokens ++ moreItems items)

/-- The rest of an object, behind a member. -/
def moreMembers : List (String × Value) → List Token
  | [] => [.closeObject]
  | (k, v) :: members => .comma :: .string k :: .colon :: (v.tokens ++ moreMembers members)

end

end Singletons.Json
