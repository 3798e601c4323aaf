/-
YAML documents as trees.

A document is a scalar, a sequence or a mapping, or it repeats a node that
was named before.  The keys of a mapping are scalars and differ.  One key
stands for the entries of other mappings; a key of the mapping itself goes
before theirs, and of theirs the first.
-/
import Narrowing.Document.Scalar

namespace Narrowing.Document

/-- A document as a tree. -/
inductive Tree where
  /-- a scalar, with its tag if it has one -/
  | scalar (plain : Bool) (tag : Option String) (text : String)
  | sequence (items : List Tree)
  /-- the entries of a mapping by the wording of their keys, unless some key is not allowed -/
  | mapping (entries : Option (List (String × Tree)))
  /-- a node named before, unless it holds this one -/
  | reference (name : String) (target : Option Tree)

namespace Tree

/-- The node of something left out. -/
def absent : Tree := .scalar true none ""

/-- The node itself, or the one it repeats. -/
def resolve? : Tree → Option Tree
  | reference _ target => target
  | n => some n

def scalar? (n : Tree) : Option Scalar :=
  match n.resolve? with
  | some (.scalar plain tag s) => meaning? plain tag s
  | _ => none

/-- A scalar as a text.  What is no text keeps its wording. -/
def text? (n : Tree) : Option String :=
  match n.resolve? with
  | some (.scalar plain tag s) =>
    (meaning? plain tag s).map fun
      | .text t => t
      | _ => s
  | _ => none

def isNull (n : Tree) : Bool := n.scalar? == some .null

/-- The entries of a mapping.  Nothing at all counts as a mapping without entries. -/
def entries? (n : Tree) : Option (List (String × Tree)) :=
  match n.resolve? with
  | some (.mapping entries) => entries
  | _ => if n.isNull then some [] else none

/-! ## Building mappings -/

/-- The key that stands for the entries of other mappings. -/
def mergeWord : String := "<<"

/-- Whether two keys are written the same way. -/
def sameKey : Tree → Tree → Bool
  | scalar _ _ s, scalar _ _ t => s == t
  | reference s _, reference t _ => s == t
  | _, _ => false

/-- Whether a key stands for the entries of other mappings. -/
def isMergeKey : Tree → Bool
  | scalar plain tag s => s == mergeWord && (tag == some "!!merge" || (plain && tag == none))
  | _ => false

/-- The entries of a node that is, or repeats, a mapping. -/
def mapped? (n : Tree) : Option (List (String × Tree)) :=
  match n.resolve? with
  | some (.mapping entries) => entries
  | _ => none

/-- The entries that a merge brings: those of a mapping, or of all mappings of a sequence. -/
def merged? : Tree → Option (List (String × Tree))
  | sequence items => (items.mapM mapped?).map List.flatten
  | n => n.mapped?

/-- Whether all elements of a list differ under a test. -/
def distinct {α : Type} (same : α → α → Bool) : List α → Bool
  | [] => true
  | a :: as => !as.any (same a) && distinct same as

/-- The entries of a mapping.  An entry whose key is nothing is dropped. -/
def collect? (entries : List (Tree × Tree)) : Option (List (String × Tree)) := do
  if !distinct sameKey (entries.map Prod.fst) then none
  let (merges, own) := entries.partition fun e => e.1.isMergeKey
  let named ← own.mapM fun (k, v) => k.text?.map fun name => (k, name, v)
  let own := (named.filter fun e => !e.1.isNull).map Prod.snd
  if !distinct (· == ·) (own.map Prod.fst) then none
  let merged ← merges.mapM fun e => e.2.merged?
  return merged.flatten.foldl
    (fun es e => if es.any (·.1 == e.1) then es else es ++ [e]) own

def ofEntries (entries : List (Tree × Tree)) : Tree := .mapping (collect? entries)

end Tree

end Narrowing.Document
