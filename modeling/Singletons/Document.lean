import Singletons.Callback
/-!
# Documents

A document is a tree of scalars, sequences and maps. Reading it distinguishes a key that is missing,
which is an answer, from a node without the asked-for shape, which is an error.
-/

namespace Singletons

inductive Document where
  | scalar (text : String)
  | null
  | sequence (items : List Document)
  | map (entries : List (Document × Document))

/-- The one error of reading a document. -/
structure Malformed where
  deriving DecidableEq, Repr

namespace Document

abbrev Entries := List (Document × Document)

def text : Document → Except Malformed String
  | scalar s => .ok s
  | _ => .error {}

/-- The entry of the first scalar key with this text. -/
def child? (key : String) : Entries → Option Document
  | [] => none
  | (scalar s, node) :: rest => if s = key then some node else child? key rest
  | _ :: rest => child? key rest

/-- The node under a key. Nothing is found under null or in a sequence; a scalar has no keys. -/
def get? (key : String) : Document → Except Malformed (Option Document)
  | scalar _ => .error {}
  | null => .ok none
  | sequence _ => .ok none
  | map entries => .ok (child? key entries)

/-- The entries of a node that is taken for a map: null has none, and the items of a sequence
stand under their positions. -/
def entries : Document → Except Malformed Entries
  | scalar _ => .error {}
  | null => .ok []
  | sequence items => .ok (items.zipIdx.map fun (item, i) => (scalar (toString i), item))
  | map entries => .ok entries

/-- The nodes met in a walk over the elements. An entry of a map is met as a pair, which is no
node, and nothing else has elements. -/
def elements : Document → List (Option Document)
  | sequence items => items.map some
  | map entries => entries.map fun _ => none
  | _ => []

/-- The size that a scalar stands for, as far as the reader of numbers takes its text for one. -/
def size? (number? : String → Option Nat) : Document → Option Nat
  | scalar s => number? s
  | _ => none

def size (number? : String → Option Nat) (d : Document) : Except Malformed Nat :=
  match d.size? number? with
  | some n => .ok n
  | none => .error {}

/-- The texts of a sequence of scalars. -/
def texts : Document → Except Malformed (List String)
  | sequence items => items.mapM text
  | _ => .error {}

end Document

end Singletons
