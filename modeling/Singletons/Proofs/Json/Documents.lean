import Singletons.Proofs.Json.Reader
/-!
# Documents and their tokens

The tokens of a value lead the machine to that value, and what the machine has read when it reaches
a value are the tokens of the value. So the tokens of a document determine its value and the other
way round.
-/

namespace Singletons.Json

/-- Values begin with the token that the state waits for. -/
def State.Awaits (s : State) (outer : List Frame) : Prop :=
  ∀ t s', State.begins outer t = some s' → s.next t = some s'

theorem State.awaits_value (outer : List Frame) : (State.value outer).Awaits outer := by
  intro t s h
  exact h

theorem State.awaits_item (outer : List Frame) :
    (State.item outer).Awaits (.array [] :: outer) := by
  intro t s h
  cases t <;> first | exact h | cases h

theorem State.foldlM_cons {s q : State} {t : Token} (h : s.next t = some q)
    (later : List Token) : (t :: later).foldlM State.next s = later.foldlM State.next q := by
  rw [List.foldlM_cons, h]
  rfl

mutual

theorem foldlM_tokens (v : Value) {s : State} {outer : List Frame} (awaits : s.Awaits outer)
    (later : List Token) :
    (v.tokens ++ later).foldlM State.next s = later.foldlM State.next (.done v outer) := by
  match v with
  | .null | .bool _ | .number _ | .string _ => exact State.foldlM_cons (awaits _ _ rfl) later
  | .array [] =>
    rw [Value.tokens, List.cons_append, State.foldlM_cons (awaits .openArray _ rfl)]
    rfl
  | .array (v :: items) =>
    rw [Value.tokens, List.cons_append, List.append_assoc,
      State.foldlM_cons (awaits .openArray _ rfl), foldlM_tokens v (State.awaits_item outer),
      foldlM_moreItems items [] v]
    rfl
  | .object [] =>
    rw [Value.tokens, List.cons_append, State.foldlM_cons (awaits .openObject _ rfl)]
    rfl
  | .object ((k, v) :: members) =>
    rw [Value.tokens, List.cons_append, List.cons_append, List.cons_append, List.append_assoc,
      State.foldlM_cons (awaits .openObject _ rfl),
      State.foldlM_cons (s := .member outer) (q := .colon [] k outer) rfl,
      State.foldlM_cons (s := .colon [] k outer) rfl, foldlM_tokens v (State.awaits_value _),
      foldlM_moreMembers members [] k v]
    rfl

theorem foldlM_moreItems (rest items : List Value) (v : Value) {outer : List Frame}
    (later : List Token) :
    (moreItems rest ++ later).foldlM State.next (.done v (.array items :: outer)) =
      later.foldlM State.next (.done (.array (items ++ v :: rest)) outer) := by
  match rest with
  | [] => rfl
  | w :: rest =>
    rw [moreItems, List.cons_append, List.append_assoc,
      State.foldlM_cons (s := .done v (.array items :: outer)) rfl,
      foldlM_tokens w (State.awaits_value _), foldlM_moreItems rest (items ++ [v]) w,
      List.append_assoc]
    rfl

theorem foldlM_moreMembers (rest members : List (String × Value)) (k : String) (v : Value)
    {outer : List Frame} (later : List Token) :
    (moreMembers rest ++ later).foldlM State.next (.done v (.object members k :: outer)) =
      later.foldlM State.next (.done (.object (members ++ (k, v) :: rest)) outer) := by
  match rest with
  | [] => rfl
  | (l, w) :: rest =>
    rw [moreMembers, List.cons_append, List.cons_append, List.cons_append, List.append_assoc,
      State.foldlM_cons (s := .done v (.object members k :: outer)) rfl,
      State.foldlM_cons (s := .key (members ++ [(k, v)]) outer)
        (q := .colon (members ++ [(k, v)]) l outer) rfl,
      State.foldlM_cons (s := .colon (members ++ [(k, v)]) l outer) rfl,
      foldlM_tokens w (State.awaits_value _),
      foldlM_moreMembers rest (members ++ [(k, v)]) l w, List.append_assoc]
    rfl

end

/-- Items with a comma behind each. -/
def leadingItems : List Value → List Token
  | [] => []
  | v :: items => v.tokens ++ .comma :: leadingItems items

/-- Members with a comma behind each. -/
def leadingMembers : List (String × Value) → List Token
  | [] => []
  | (k, v) :: members => .string k :: .colon :: (v.tokens ++ .comma :: leadingMembers members)

theorem leadingItems_concat (items : List Value) (v : Value) :
    leadingItems (items ++ [v]) = leadingItems items ++ (v.tokens ++ [.comma]) := by
  induction items with
  | nil => rfl
  | cons w items ih => simp [leadingItems, ih]

theorem leadingMembers_concat (members : List (String × Value)) (k : String) (v : Value) :
    leadingMembers (members ++ [(k, v)]) =
      leadingMembers members ++ .string k :: .colon :: (v.tokens ++ [.comma]) := by
  induction members with
  | nil => rfl
  | cons m members ih => simp [leadingMembers, ih]

theorem tokens_array_concat (items : List Value) (v : Value) :
    (Value.array (items ++ [v])).tokens =
      .openArray :: (leadingItems items ++ (v.tokens ++ [.closeArray])) := by
  have more (w : Value) (items : List Value) : w.tokens ++ moreItems (items ++ [v]) =
      leadingItems (w :: items) ++ (v.tokens ++ [.closeArray]) := by
    induction items generalizing w with
    | nil => simp [leadingItems, moreItems]
    | cons u items ih => simp [moreItems, ih u, leadingItems]
  cases items with
  | nil => simp [Value.tokens, moreItems, leadingItems]
  | cons w items => rw [List.cons_append, Value.tokens, more]

theorem tokens_object_concat (members : List (String × Value)) (k : String) (v : Value) :
    (Value.object (members ++ [(k, v)])).tokens =
      .openObject ::
        (leadingMembers members ++ .string k :: .colon :: (v.tokens ++ [.closeObject])) := by
  have more (w : Value) (members : List (String × Value)) (l : String) :
      .string l :: .colon :: (w.tokens ++ moreMembers (members ++ [(k, v)])) =
        leadingMembers ((l, w) :: members) ++
          .string k :: .colon :: (v.tokens ++ [.closeObject]) := by
    induction members generalizing w l with
    | nil => simp [leadingMembers, moreMembers]
    | cons next members ih =>
      obtain ⟨m, u⟩ := next
      rw [List.cons_append, moreMembers, ih u m]
      simp [leadingMembers]
  cases members with
  | nil => simp [Value.tokens, moreMembers, leadingMembers]
  | cons w members => rw [List.cons_append, Value.tokens, more]

def Frame.read : Frame → List Token
  | array items => .openArray :: leadingItems items
  | object members k => .openObject :: (leadingMembers members ++ [.string k, .colon])

/-- What has been read of the open arrays and objects. -/
def readOf : List Frame → List Token
  | [] => []
  | f :: outer => readOf outer ++ f.read

namespace State

/-- The tokens that lead to a state. -/
def read : State → List Token
  | value outer => readOf outer
  | item outer => readOf outer ++ [.openArray]
  | member outer => readOf outer ++ [.openObject]
  | key members outer => readOf outer ++ .openObject :: leadingMembers members
  | colon members k outer => readOf outer ++ .openObject :: (leadingMembers members ++ [.string k])
  | done v outer => readOf outer ++ v.tokens

theorem read_of_begins {outer : List Frame} {t : Token} {s : State}
    (h : begins outer t = some s) : s.read = readOf outer ++ [t] := by
  cases t <;> cases h <;> rfl

theorem read_of_next {s s' : State} {t : Token} (h : s.next t = some s') :
    s'.read = s.read ++ [t] := by
  fun_cases State.next s t with
  | case1 outer => exact read_of_begins h
  | case2 outer =>
    cases h
    simp [read, Value.tokens]
  | case3 outer _ other =>
    rw [State.next] at h
    · rw [read_of_begins h]
      simp [read, readOf, Frame.read, leadingItems]
    · exact other
  | case4 outer =>
    cases h
    simp [read, Value.tokens]
  | case5 outer k =>
    cases h
    simp [read, leadingMembers]
  | case6 members outer k =>
    cases h
    simp [read]
  | case7 members k outer =>
    cases h
    simp [read, readOf, Frame.read]
  | case8 v items outer =>
    cases h
    simp [read, readOf, Frame.read, leadingItems_concat]
  | case9 v items outer =>
    cases h
    simp [read, readOf, Frame.read, tokens_array_concat]
  | case10 v members k outer =>
    cases h
    simp [read, readOf, Frame.read, leadingMembers_concat]
  | case11 v members k outer =>
    cases h
    simp [read, readOf, Frame.read, tokens_object_concat]
  | case12 => simp_all [State.next]

theorem read_of_foldlM {ts : List Token} {s s' : State} (h : ts.foldlM State.next s = some s') :
    s'.read = s.read ++ ts := by
  induction ts generalizing s with
  | nil =>
    cases h
    simp
  | cons t ts ih =>
    rw [List.foldlM_cons] at h
    obtain ⟨mid, first, rest⟩ := Option.bind_eq_some_iff.mp h
    rw [ih rest, read_of_next first, List.append_assoc]
    rfl

end State

/-- A text denotes a value exactly if it is cut into the tokens of the value. -/
theorem parse_eq_some_iff (document : String) (v : Value) :
    parse document = some v ↔ Json.tokens document.toList = some v.tokens := by
  constructor
  · intro h
    obtain ⟨ts, cut, h⟩ := Option.bind_eq_some_iff.mp h
    obtain ⟨s, run, h⟩ := Option.bind_eq_some_iff.mp h
    split at h
    · cases h
      have read := State.read_of_foldlM run
      rw [cut]
      exact congrArg some read.symm
    · cases h
  · intro cut
    have run := foldlM_tokens v (State.awaits_value []) []
    rw [List.append_nil] at run
    simp only [parse, cut, Option.bind_eq_bind, Option.bind_some]
    rw [run]
    rfl

end Singletons.Json
