import Singletons.Code
/-!
# Results

An operation either delivers its value or reports a code with an optional detail. A report is not
always a failure: ignoring a duplicate is reported, and so is a success code that a caller chose, or
a success that has no value to deliver.
-/

namespace Singletons

/-- The answer of an operation that delivers an `α` and explains a refusal with an `ε`. -/
inductive Result (ε α : Type) where
  | done (value : α)
  | report (code : Code) (detail : Option ε)
  deriving Repr

/-- The result of an operation without a value, explained by a text. -/
abbrev Plain := Result String Unit

namespace Result

variable {ε α : Type}

def code : Result ε α → Code
  | done _ => .ok
  | report c _ => c

def detail : Result ε α → Option ε
  | done _ => none
  | report _ d => d

/-- Whether a result counts as success is read off its code alone. -/
def isOk (r : Result ε α) : Bool := r.code.isSuccess

def value? : Result ε α → Option α
  | done a => some a
  | report _ _ => none

/-- What a caller returns that passes failures on and is done otherwise. -/
def forward (r : Result ε α) : Result ε Unit :=
  if r.isOk then done () else report r.code r.detail

/-- As `forward`, with a failure's text put behind `context`. -/
def forwardWith (context : String) (r : Result String α) : Plain :=
  if r.isOk then done () else
    report r.code (some (match r.detail with
      | some text => context ++ ": " ++ text
      | none => context))

/-- What a caller returns that passes failures on, and of a success nothing but the value. -/
def bare (r : Result ε α) : Result ε α :=
  if r.isOk then
    match r.value? with
    | some a => done a
    | none => report .ok none
  else report r.code r.detail

/-- The name of the code, followed by the text if there is one. -/
def text (r : Plain) : String :=
  r.code.name ++ match r.detail with
    | some text => ": " ++ text
    | none => ""

theorem isOk_bare (r : Result ε α) : r.bare.isOk = r.isOk := by
  unfold bare
  split
  · rw [‹r.isOk = true›]
    split <;> rfl
  · rfl

/-- Only a report of success loses something, and never the value. -/
theorem value?_bare (r : Result ε α) : r.bare.value? = r.value? := by
  cases r with
  | done a => rfl
  | report c d =>
    unfold bare
    split <;> rfl

theorem bare_of_not_isOk {r : Result ε α} (h : r.isOk = false) : r.bare = r := by
  cases r with
  | done a => simp [isOk, code, Code.isSuccess] at h
  | report c d => simp only [bare, h, Bool.false_eq_true, if_false, code, detail]

end Result

end Singletons
