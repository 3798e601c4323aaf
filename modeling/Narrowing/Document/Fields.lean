/-
Reading the nodes of a document as values.

Every reader gives nothing where a node is not of the kind wanted.
-/
import Narrowing.Document.Tree

namespace Narrowing.Document

namespace Tree

/-- A truth value; some words stand for one too. -/
def truth? (n : Tree) : Option Bool :=
  match n.scalar? with
  | some (.truth b) => some b
  | some (.text s) =>
    if s ∈ ["y", "Y", "yes", "Yes", "YES", "on", "On", "ON"] then some true
    else if s ∈ ["n", "N", "no", "No", "NO", "off", "Off", "OFF"] then some false
    else none
  | _ => none

/-- A number of thirty-two bits without sign. -/
def uint32? (n : Tree) : Option UInt32 :=
  match n.scalar? with
  | some (.whole n) | some (.fraction n) =>
    if 0 ≤ n ∧ n < UInt32.size then some (UInt32.ofNat n.toNat) else none
  | _ => none

/-- A number of sixty-four bits with sign.  A whole part below or just above the range
becomes the least number; anything greater is refused. -/
def int64? (n : Tree) : Option Int :=
  match n.scalar? with
  | some (.whole n) => if n ≤ Int64.maxValue.toInt then some n else none
  | some (.fraction n) =>
    if Int64.maxValue.toInt + 1 < n then none
    else if Int64.minValue.toInt ≤ n ∧ n ≤ Int64.maxValue.toInt then some n
    else some Int64.minValue.toInt
  | some (.infinite true) => some Int64.minValue.toInt
  | _ => none

/-- The entries of a mapping whose keys are all known. -/
def fields? (known : List String) (n : Tree) : Option (List (String × Tree)) :=
  n.entries?.filter fun es => es.all fun e => known.contains e.1

def items? (n : Tree) : Option (List Tree) :=
  match n.resolve? with
  | some (.sequence items) => some items
  | _ => none

/-- A list of texts; items that are nothing are dropped. -/
def texts? (n : Tree) : Option (List String) := do
  let items ← n.items?
  (items.filter fun n => !n.isNull).mapM text?

/-- A list of lists of texts; an item that is nothing is an empty list. -/
def textLists? (n : Tree) : Option (List (List String)) := do
  let items ← n.items?
  items.mapM fun n => if n.isNull then some [] else n.texts?

/-- A mapping of texts to texts; a value that is nothing is the empty text. -/
def textMap? (n : Tree) : Option (List (String × String)) := do
  let es ← n.entries?
  es.mapM fun e => if e.2.isNull then some (e.1, "") else e.2.text?.map fun v => (e.1, v)

end Tree

/-- The value of a field, read by `read`; a field left out or empty has the default. -/
def field? {α : Type} (fields : List (String × Tree)) (name : String) (read : Tree → Option α)
    (default : α) : Option α :=
  match fields.lookup name with
  | none => some default
  | some n => if n.isNull then some default else read n

end Narrowing.Document
