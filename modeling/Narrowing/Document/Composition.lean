/-
Trees from tokens.

Only the first document of a text is read.  What follows it counts as far
as the next token must be certain.

Readers count down steps, of which a text gives enough: every reader takes
a token for each step or two.
-/
import Narrowing.Document.TokenQueue
import Narrowing.Document.Tree

namespace Narrowing.Document

/-- What the readers of a document share. -/
structure Composition where
  queue : TokenQueue
  /-- the nodes that have a name; nothing while a node is being read -/
  anchors : Array (String × Option Tree)
  /-- what the handles in front of tags stand for -/
  handles : List (List Char × List Char)

/-- A reader of a part of a document. -/
abbrev Compose := StateT Composition Option

namespace Compose

/-! ## Tokens -/

def peek : Compose Token := do
  let c ← get
  let (t, queue) ← c.queue.peek?
  set { c with queue }
  return t

def skip : Compose Unit := modify fun c => { c with queue := c.queue.take }

/-- Take the next token if it is a given one, and tell whether it was. -/
def accept (t : Token) : Compose Bool := do
  if (← peek) = t then
    skip
    return true
  else return false

/-- Read a node, or nothing if one of some tokens comes next. -/
def orAbsent (stops : List Token) (read : Compose Tree) : Compose Tree := do
  if (← peek) ∈ stops then return .absent else read

/-- Read a node, or take one of some tokens if it comes next. -/
def orTaken (stops : List Token) (read : Compose Tree) : Compose Tree := do
  if (← peek) ∈ stops then
    skip
    return .absent
  else read

/-- Read a value if its sign comes next. -/
def valueOr (stops : List Token) (read : Compose Tree) : Compose Tree := do
  if ← accept .value then orAbsent stops read else return .absent

/-- Take the comma that stands before everything between brackets but the first. -/
def comma (first : Bool) : Compose Unit := do
  if first then return ()
  if !(← accept .flowEntry) then failure

/-! ## Names and tags of nodes -/

/-- The tags that every document knows, and what they start with. -/
def standardTags : List Char := "tag:yaml.org,2002:".toList

/-- What handles stand for where no directive says so. -/
def standardHandles : List (List Char × List Char) :=
  [(['!'], ['!']), (['!', '!'], standardTags)]

/-- The short form of a tag.  A lone mark says no more than no tag at all. -/
def shortTag (tag : List Char) : Option String :=
  if tag = ['!'] then none
  else if standardTags.isPrefixOf tag then
    some ("!!" ++ String.ofList (tag.drop standardTags.length))
  else some (String.ofList tag)

/-- The tag that a handle and a suffix stand for. -/
def tagOf (handle suffix : List Char) : Compose (Option String) := do
  if handle.isEmpty then return shortTag suffix
  let meaning ← (← get).handles.lookup handle
  return shortTag (meaning ++ suffix)

/-- A name for the next node, if there is one. -/
def anchor? : Compose (Option (List Char)) := do
  match ← peek with
  | .anchor name => skip; return some name
  | _ => return none

/-- A tag for the next node, if there is one; what it stands for comes second. -/
def tag? : Compose (Option (Option String)) := do
  match ← peek with
  | .tag handle suffix =>
    skip
    let _ ← peek
    return some (← tagOf handle suffix)
  | _ => return none

/-- The name and the tag of a node, in either order. -/
def properties : Compose (Option (List Char) × Option (Option String)) := do
  match ← anchor? with
  | some name => return (some name, ← tag?)
  | none =>
    match ← tag? with
    | some tag => return (← anchor?, some tag)
    | none => return (none, none)

/-- Read a node that has a name.  Inside the node its name stands for nothing. -/
def named (name : List Char) (read : Compose Tree) : Compose Tree := do
  let place := (← get).anchors.size
  let name := String.ofList name
  modify fun c => { c with anchors := c.anchors.push (name, none) }
  let n ← read
  modify fun c => { c with anchors := c.anchors.setIfInBounds place (name, some n) }
  return n

/-- The node that a name repeats. -/
def repeated (name : List Char) : Compose Tree := do
  let name := String.ofList name
  let (_, target) ← (← get).anchors.toList.reverse.find? (·.1 == name)
  return .reference name target

/-! ## Nodes -/

mutual

/-- A node.  `block` tells whether it may be laid out by indentation, and `hanging` whether
the items of a sequence may stand right under their key. -/
def node : (steps : Nat) → (block hanging : Bool) → Compose Tree
  | 0, _, _ => failure
  | steps + 1, block, hanging => do
    match ← peek with
    | .reference name =>
      skip
      repeated name
    | _ =>
      let (name, tag) ← properties
      let read := content steps block hanging (name.isSome || tag.isSome) tag.join
      match name with
      | some name => named name read
      | none => read

/-- A node without its name and tag.  It may be left out if it has one of these. -/
def content : (steps : Nat) → (block hanging optional : Bool) → Option String → Compose Tree
  | 0, _, _, _, _ => failure
  | steps + 1, block, hanging, optional, tag => do
    let t ← peek
    if t = .blockEntry && hanging then
      return .sequence (← hangingItems steps)
    else if t = .flowSequence then
      skip
      return .sequence (← flowItems steps true)
    else if t = .flowMapping then
      skip
      return .ofEntries (← flowEntries steps true)
    else if t = .blockSequence && block then
      skip
      return .sequence (← blockItems steps)
    else if t = .blockMapping && block then
      skip
      return .ofEntries (← blockEntries steps)
    else
      match t with
      | .scalar plain wording =>
        skip
        return .scalar plain tag (String.ofList wording)
      | _ => if optional then return .scalar true tag "" else failure

def blockItems : (steps : Nat) → Compose (List Tree)
  | 0 => failure
  | steps + 1 => do
    if ← accept .blockEntry then
      let item ← orAbsent [.blockEntry, .blockEnd] (node steps true false)
      return item :: (← blockItems steps)
    else if ← accept .blockEnd then return []
    else failure

/-- The items right under a key. -/
def hangingItems : (steps : Nat) → Compose (List Tree)
  | 0 => failure
  | steps + 1 => do
    if ← accept .blockEntry then
      let item ← orAbsent [.blockEntry, .key, .value, .blockEnd] (node steps true false)
      return item :: (← hangingItems steps)
    else return []

def blockEntries : (steps : Nat) → Compose (List (Tree × Tree))
  | 0 => failure
  | steps + 1 => do
    if ← accept .key then
      let stops := [.key, .value, .blockEnd]
      let key ← orAbsent stops (node steps true true)
      let value ← valueOr stops (node steps true true)
      return (key, value) :: (← blockEntries steps)
    else if ← accept .blockEnd then return []
    else failure

/-- The items between brackets. -/
def flowItems : (steps : Nat) → (first : Bool) → Compose (List Tree)
  | 0, _ => failure
  | steps + 1, first => do
    if ← accept .flowSequenceEnd then return []
    comma first
    if ← accept .key then
      let pair ← flowPair steps
      return pair :: (← flowItems steps false)
    else if ← accept .flowSequenceEnd then return []
    else
      let item ← node steps false false
      return item :: (← flowItems steps false)

/-- A mapping of one entry, as an item between brackets.  A sign that stands where its key
should be is taken for the key. -/
def flowPair : (steps : Nat) → Compose Tree
  | 0 => failure
  | steps + 1 => do
    let key ← orTaken [.value, .flowEntry, .flowSequenceEnd] (node steps false false)
    let value ← valueOr [.flowEntry, .flowSequenceEnd] (node steps false false)
    return .ofEntries [(key, value)]

/-- The entries between braces. -/
def flowEntries : (steps : Nat) → (first : Bool) → Compose (List (Tree × Tree))
  | 0, _ => failure
  | steps + 1, first => do
    if ← accept .flowMappingEnd then return []
    comma first
    if ← accept .key then
      let key ← orAbsent [.value, .flowEntry, .flowMappingEnd] (node steps false false)
      let value ← valueOr [.flowEntry, .flowMappingEnd] (node steps false false)
      return (key, value) :: (← flowEntries steps false)
    else if ← accept .flowMappingEnd then return []
    else
      let key ← node steps false false
      return (key, .absent) :: (← flowEntries steps false)

end

/-! ## Documents -/

/-- The directives in front of a document.  A version, given at most once, must be 1.1, and no
handle may be given twice. -/
def directives : (steps : Nat) → (versioned : Bool) → Compose Unit
  | 0, _ => failure
  | steps + 1, versioned => do
    match ← peek with
    | .version major minor =>
      if versioned || (major, minor) ≠ (1, 1) then failure
      skip
      directives steps true
    | .tagHandle handle meaning =>
      if ((← get).handles.lookup handle).isSome then failure
      skip
      modify fun c => { c with handles := c.handles ++ [(handle, meaning)] }
      directives steps versioned
    | _ => return ()

/-- Whether a token starts or ends a document. -/
def isBoundary : Token → Bool
  | .version _ _ | .tagHandle _ _ | .documentStart | .documentEnd | .streamEnd => true
  | _ => false

/-- The first document of a text.  A text without any is nothing. -/
def document (steps : Nat) : Compose Tree := do
  let t ← peek
  if t = .streamEnd then return .absent
  let explicit := isBoundary t && t ≠ .documentEnd
  if explicit then
    directives steps false
    if !(← accept .documentStart) then failure
  modify fun c => { c with handles := c.handles ++ standardHandles }
  let t ← peek
  let n ← if explicit && isBoundary t then pure .absent else node steps true false
  let _ ← peek
  return n

end Compose

def parse? (text : String) : Option Tree :=
  let c : Composition := ⟨.ofText text, #[], []⟩
  ((Compose.document (8 * text.length + 8)).run c).map Prod.fst

end Narrowing.Document
