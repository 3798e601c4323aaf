/-
The tokens of a document, and the readers of those that are names.

A token is a sign, the start or the end of something laid out by
indentation, or a name or scalar with its wording.
-/
import Narrowing.Document.Wording

namespace Narrowing.Document

inductive Token where
  | streamEnd
  /-- the directive that names the version of the format -/
  | version (major minor : Nat)
  /-- the directive that says what a handle in front of tags stands for -/
  | tagHandle (handle : List Char) (meaning : List Char)
  | documentStart
  | documentEnd
  | blockSequence
  | blockMapping
  | blockEnd
  | flowSequence
  | flowSequenceEnd
  | flowMapping
  | flowMappingEnd
  | flowEntry
  | blockEntry
  | key
  | value
  | reference (name : List Char)
  | anchor (name : List Char)
  | tag (handle suffix : List Char)
  | scalar (plain : Bool) (wording : List Char)
deriving DecidableEq

/-! ## Names -/

/-- A name that is not empty. -/
def name? (p : Place) : Option (List Char × Place) :=
  let name := p.rest.takeWhile isNameChar
  if name.isEmpty then none else some (name, p.skip name.length)

/-- The name of an anchor or of a reference to one, from behind its sign. -/
def anchorName? (p : Place) : Option (List Char × Place) := do
  let (name, p) ← name? p
  let ends (c : Char) : Bool := c ∈ ['?', ':', ',', ']', '\x7d', '%', '@', '\x60']
  if endsWord p.rest || p.rest.head?.any ends then return (name, p) else none

/-! ## Tags -/

/-- Whether a character may stand in a tag as it is. -/
def isTagChar (c : Char) : Bool :=
  isNameChar c || c ∈ [';', '/', '?', ':', '@', '&', '=', '+', '$', ',', '.', '!', '~', '*',
    '\'', '(', ')', '[', ']']

/-- A byte, written as a percent sign and two hexadecimal digits. -/
def percentByte? : List Char → Option Nat
  | '%' :: a :: b :: _ => Text.natIn? 16 [a, b]
  | _ => none

/-- How many bytes a character has whose first byte is given; 0 if it is no first byte. -/
def bytesFrom (lead : Nat) : Nat :=
  if lead < 0x80 then 1
  else if lead / 0x20 = 0x06 then 2
  else if lead / 0x10 = 0x0E then 3
  else if lead / 0x08 = 0x1E then 4
  else 0

/-- A character written by its bytes, and the length of that.  Bytes that do not make up a
character are replaced. -/
def percentChar? (cs : List Char) : Option (Char × Nat) := do
  let lead ← percentByte? cs
  let count := bytesFrom lead
  if count = 0 then none
  let more ← (List.range (count - 1)).mapM fun i =>
    (percentByte? (cs.drop (3 * (i + 1)))).filter fun n => n / 0x40 = 0x02
  let bytes := (lead :: more).map UInt8.ofNat
  let char := (String.fromUTF8? ⟨bytes.toArray⟩).bind fun s => s.toList.head?
  return (char.getD '\uFFFD', 3 * count)

/-- The text of a tag, where a character may be written by its bytes. -/
def tagText? : (steps : Nat) → Place → Option (List Char × Place)
  | 0, p => some ([], p)
  | steps + 1, p =>
    match p.rest with
    | '%' :: _ => do
      let (c, length) ← percentChar? p.rest
      let (more, last) ← tagText? steps (p.skip length)
      return (c :: more, last)
    | c :: _ =>
      if isTagChar c then
        (tagText? steps (p.skip 1)).map fun (more, last) => (c :: more, last)
      else some ([], p)
    | [] => some ([], p)

/-- The text of a tag, which must not be empty. -/
def someTagText? (p : Place) : Option (List Char × Place) :=
  (tagText? p.rest.length p).filter fun r => !r.1.isEmpty

/-- A handle: an exclamation mark, a name, and, unless it is missing, another mark. -/
def tagHandle? (p : Place) : Option (List Char × Place) :=
  if !p.sees '!' then none
  else
    let name := (p.rest.drop 1).takeWhile isNameChar
    let p := p.skip (name.length + 1)
    some (if p.sees '!' then ('!' :: name ++ ['!'], p.skip 1) else ('!' :: name, p))

/-- A tag: its handle and the rest.  A tag between angle brackets has no handle. -/
def tag? (p : Place) : Option (Token × Place) := do
  let (tag, p) ←
    if (p.skip 1).sees '<' then do
      let (text, p) ← someTagText? (p.skip 2)
      if p.sees '>' then pure (Token.tag [] text, p.skip 1) else none
    else do
      let (handle, p) ← tagHandle? p
      if 1 < handle.length && handle.getLast? == some '!' then
        let (text, p) ← someTagText? p
        pure (Token.tag handle text, p)
      else
        let (text, p) ← tagText? p.rest.length p
        let text := handle.drop 1 ++ text
        pure (if text.isEmpty then Token.tag [] ['!'] else Token.tag ['!'] text, p)
  if endsWord p.rest then return (tag, p) else none

/-! ## Directives -/

/-- A number of one or two digits. -/
def versionNumber? (p : Place) : Option (Nat × Place) :=
  let digits := p.rest.takeWhile Char.isDigit
  if digits.isEmpty || 2 < digits.length then none
  else (Text.natIn? 10 digits).map fun n => (n, p.skip digits.length)

/-- A directive, from behind its percent sign, and the place behind its line. -/
def directive? (p : Place) : Option (Token × Place) := do
  let (name, p) ← name? p
  if !endsWord p.rest then none
  let p := p.skipWhile isBlank
  let (token, p) ←
    if name == ['Y', 'A', 'M', 'L'] then do
      let (major, p) ← versionNumber? p
      if !p.sees '.' then none
      let (minor, p) ← versionNumber? (p.skip 1)
      pure (Token.version major minor, p)
    else if name == ['T', 'A', 'G'] then do
      let (handle, p) ← tagHandle? p
      if handle.length ≠ 1 && handle.getLast? != some '!' then none
      if !p.rest.head?.any isBlank then none
      let (text, p) ← someTagText? (p.skipWhile isBlank)
      if !endsWord p.rest then none
      pure (Token.tagHandle handle text, p)
    else none
  let p := p.skipWhile isBlank
  let p := if p.sees '#' then p.lineEnd else p
  match breakAt? p.rest with
  | some (_, length) => return (token, p.nextLine length)
  | none => if p.rest.isEmpty then return (token, p) else none

end Narrowing.Document
