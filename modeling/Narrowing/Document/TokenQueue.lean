/-
The tokens of a text, read as they are needed.

Indentation opens and closes blocks.  A scalar, a name or a bracket may
turn out to be a key when a colon follows it in the same line, not more
than 1024 characters on; the token that says so then goes in front of it.
So the next token is known only when three tokens are read and the first
of them can no longer be a key.  What is malformed further on is never
seen.
-/
import Narrowing.Document.Token

namespace Narrowing.Document

/-- Something that is a key if a colon follows. -/
structure PossibleKey where
  line : Nat
  index : Nat
  column : Nat
  /-- whether the layout allows nothing but a key here -/
  required : Bool
  /-- whether its token waits for the colon -/
  awaited : Bool

/-- Whether a colon at a place would make it a key. -/
def PossibleKey.isOpen (k : PossibleKey) (p : Place) : Bool :=
  p.line ≤ k.line && p.index ≤ k.index + 1024

/-- One level of brackets; outside of all brackets is one too. -/
structure Level where
  /-- the number of the token that is the possible key, was the last such token, or opened
  the level -/
  token : Nat
  key : Option PossibleKey

/-- The tokens of a text that are read and not yet taken, and what reading on depends on. -/
structure TokenQueue where
  place : Place
  tokens : List Token
  /-- how many tokens were taken -/
  taken : Nat
  /-- the columns right of the open blocks' own columns, innermost first -/
  margins : List Nat
  /-- the innermost level of brackets -/
  level : Level
  /-- the levels around it -/
  levels : List Level
  /-- whether the next token may be a key -/
  keyAllowed : Bool
  /-- whether the text breaks off before a spoilt block -/
  spoilt : Bool
  /-- for a text with a second mark of the byte order, how near to its end the first character
  of a line is no longer taken for a mark -/
  marked : Option Nat

namespace TokenQueue

/-- All tokens of a text are still to be read. -/
def ofText (text : String) : TokenQueue :=
  let cs := text.toList
  let marks := if cs.head? == some orderMark then 1 else 0
  let size := marks * orderMark.utf8Size
  let readable := readableFrom [] [] size (cs.drop marks)
  let beyond := readable.text.length - firstBlock size readable.text
  { place := .start readable.text
    tokens := []
    taken := 0
    margins := []
    level := ⟨0, none⟩
    levels := []
    keyAllowed := true
    spoilt := readable.spoilt
    marked := if readable.text.head? == some orderMark then some (beyond + 4) else none }

/-- Whether the place is between brackets. -/
def inFlow (q : TokenQueue) : Bool := !q.levels.isEmpty

/-- The column where text of the innermost block starts. -/
def margin (q : TokenQueue) : Nat := q.margins.headD 0

/-- The number of the next token to be read. -/
def next (q : TokenQueue) : Nat := q.taken + q.tokens.length

def push (q : TokenQueue) (t : Token) : TokenQueue := { q with tokens := q.tokens ++ [t] }

/-- Put a token in front of the one with a number, or at the end if that was taken. -/
def insert (q : TokenQueue) (number : Nat) (t : Token) : TokenQueue :=
  if number < q.taken then q.push t
  else
    let n := number - q.taken
    { q with tokens := q.tokens.take n ++ t :: q.tokens.drop n }

/-! ## Blocks -/

/-- Close the blocks whose margin is right of a column. -/
def closeBlocks (q : TokenQueue) (margin : Nat) : TokenQueue :=
  if q.inFlow then q
  else
    let n := (q.margins.takeWhile (margin < ·)).length
    { q with
      tokens := q.tokens ++ List.replicate n .blockEnd
      margins := q.margins.drop n }

/-- Open a block in a column, unless it is open already.  Its token gets a number. -/
def openBlock (q : TokenQueue) (column number : Nat) (t : Token) : TokenQueue :=
  if q.inFlow || column < q.margin then q
  else { q.insert number t with margins := (column + 1) :: q.margins }

/-! ## Possible keys -/

/-- Whatever was possible on this level is no key. -/
def dropKey? (q : TokenQueue) : Option TokenQueue :=
  if q.level.key.any (·.required) then none
  else some { q with level := { q.level with key := none } }

/-- The next token is a possible key, if it may be one. -/
def saveKey? (q : TokenQueue) : Option TokenQueue :=
  if !q.keyAllowed then some q
  else
    let p := q.place
    let required := !q.inFlow && q.margin == p.column + 1
    q.dropKey?.map fun q =>
      { q with level := ⟨q.next, some ⟨p.line, p.index, p.column, required, true⟩⟩ }

/-- Open a level of brackets with the next token. -/
def openLevel (q : TokenQueue) : TokenQueue :=
  { q with level := ⟨q.next, none⟩, levels := q.level :: q.levels }

/-- Close a level of brackets.  Brackets with nothing in them that could be a key no longer
wait for a colon. -/
def closeLevel (q : TokenQueue) : TokenQueue :=
  match q.levels with
  | [] => q
  | outer :: levels =>
    let key := outer.key.map fun k =>
      if outer.token = q.level.token then { k with awaited := false } else k
    { q with level := { outer with key }, levels }

/-- The possible key that the first token waits for. -/
def headKey? (q : TokenQueue) : Option PossibleKey :=
  (q.level :: q.levels).findSome? fun l =>
    if l.token = q.taken then l.key.filter (·.awaited) else none

/-! ## Reading a token -/

/-- Drop the character at the start of a line that is taken for a mark. -/
def dropMark (q : TokenQueue) : TokenQueue :=
  if q.place.column = 0 &&
      q.marked.any fun n => q.place.index = 0 || !(q.place.rest.drop (n - 1)).isEmpty then
    { q with place := q.place.skip 1 }
  else q

/-- Skip blanks, comments and line breaks.  Outside brackets a tab is no blank where a key may
stand, and every line may start with one. -/
def skipToToken : (steps : Nat) → TokenQueue → TokenQueue
  | 0, q => q
  | steps + 1, q =>
    let q := q.dropMark
    let tabs := q.inFlow || !q.keyAllowed
    let p := q.place.skipWhile fun c => c == ' ' || (tabs && c == '\t')
    let p := if p.sees '#' then p.skipComments p.rest.length else p
    match breakAt? p.rest with
    | some (_, length) =>
      skipToToken steps
        { q with place := p.nextLine length, keyAllowed := q.keyAllowed || !q.inFlow }
    | none => { q with place := p }

/-- Add a token of some characters, and skip a comment behind it. -/
def pushSign (q : TokenQueue) (t : Token) (length : Nat) : TokenQueue :=
  { q.push t with place := (q.place.skip length).skipLineComment }

/-- Leave all blocks, as at the start or end of a document. -/
def leaveBlocks? (q : TokenQueue) : Option TokenQueue :=
  (q.closeBlocks 0).dropKey?.map fun q => { q with keyAllowed := false }

def pushEnd? (q : TokenQueue) : Option TokenQueue :=
  let q := if q.place.column = 0 then q else { q with place := q.place.nextLine 0 }
  q.leaveBlocks?.map fun q => q.push .streamEnd

def pushItem? (q : TokenQueue) : Option TokenQueue :=
  if !q.inFlow && !q.keyAllowed then none
  else
    (q.openBlock q.place.column q.next .blockSequence).dropKey?.map fun q =>
      { q.push .blockEntry with place := q.place.skip 1, keyAllowed := true }

def pushKey? (q : TokenQueue) : Option TokenQueue :=
  if !q.inFlow && !q.keyAllowed then none
  else
    (q.openBlock q.place.column q.next .blockMapping).dropKey?.map fun q =>
      { q.pushSign .key 1 with keyAllowed := !q.inFlow }

/-- Add the sign in front of a value, and tell whether a key may follow it. -/
def pushValue (q : TokenQueue) (keyAllowed : Bool) : TokenQueue :=
  { q.pushSign .value 1 with level := { q.level with key := none }, keyAllowed }

/-- The sign in front of a value.  It makes a key of what is still possible as one. -/
def pushValue? (q : TokenQueue) : Option TokenQueue :=
  match q.level.key with
  | some k =>
    if k.isOpen q.place then
      let number := q.level.token
      some (((q.insert number .key).openBlock k.column number .blockMapping).pushValue false)
    else if k.required then none
    else alone
  | none => alone
where
  alone : Option TokenQueue :=
    if !q.inFlow && !q.keyAllowed then none
    else
      some ((q.openBlock q.place.column q.next .blockMapping).pushValue (!q.inFlow))

def pushOpening? (q : TokenQueue) (t : Token) : Option TokenQueue :=
  q.saveKey?.map fun q => { q.openLevel.pushSign t 1 with keyAllowed := true }

def pushClosing? (q : TokenQueue) (t : Token) : Option TokenQueue :=
  q.dropKey?.map fun q => { q.closeLevel.pushSign t 1 with keyAllowed := false }

/-- A token that may be a key, with the place behind it. -/
def pushNode? (q : TokenQueue) (read : Option (Token × Place)) : Option TokenQueue := do
  let q ← q.saveKey?
  let (t, p) ← read
  return { q.push t with place := p.skipLineComment, keyAllowed := false }

/-- A plain scalar.  Line breaks behind it let a key follow. -/
def pushPlain? (q : TokenQueue) : Option TokenQueue := do
  let q ← q.saveKey?
  let (wording, g, p) ← plain? q.inFlow q.margin (q.place.rest.length + 1) (.blanks []) q.place
  return { q.push (.scalar true wording) with
    place := if g.isBroken then p else p.skipLineComment
    keyAllowed := g.isBroken }

def pushBlock? (q : TokenQueue) (folded : Bool) : Option TokenQueue := do
  let q ← q.dropKey?
  let (wording, p) ← block? folded q.margin (q.place.skip 1)
  return { q.push (.scalar false wording) with place := p, keyAllowed := true }

def pushMarker? (q : TokenQueue) (read : Option (Token × Place)) : Option TokenQueue := do
  let q ← q.leaveBlocks?
  let (t, p) ← read
  return { q.push t with place := p }

/-- Whether a plain scalar may start with a character that has no other meaning there. -/
def startsPlain (flow : Bool) (c : Char) (cs : List Char) : Bool :=
  if c == '-' then !endsWord cs
  else if c == '?' || c == ':' then !flow && !endsWord cs
  else !(endsWord [c] || c ∈ [',', '[', ']', '\x7b', '\x7d', '#', '&', '*', '!', '|', '>', '\'',
    '"', '%', '@', '\x60'])

/-- The token that a character starts. -/
def pushFrom? (q : TokenQueue) (c : Char) (cs : List Char) : Option TokenQueue :=
  let p := q.place
  let word := q.inFlow || endsWord cs
  if p.column = 0 && c == '%' then q.pushMarker? (directive? (p.skip 1))
  else if p.atTriple '-' then q.pushMarker? (some (.documentStart, p.skip 3))
  else if p.atTriple '.' then q.pushMarker? (some (.documentEnd, p.skip 3))
  else if c == '[' then q.pushOpening? .flowSequence
  else if c == '\x7b' then q.pushOpening? .flowMapping
  else if c == ']' then q.pushClosing? .flowSequenceEnd
  else if c == '\x7d' then q.pushClosing? .flowMappingEnd
  else if c == ',' then
    q.dropKey?.map fun q => { q.pushSign .flowEntry 1 with keyAllowed := true }
  else if c == '-' && endsWord cs then q.pushItem?
  else if c == '?' && word then q.pushKey?
  else if c == ':' && word then q.pushValue?
  else if c == '*' then
    q.pushNode? ((anchorName? (p.skip 1)).map fun (name, p) => (.reference name, p))
  else if c == '&' then
    q.pushNode? ((anchorName? (p.skip 1)).map fun (name, p) => (.anchor name, p))
  else if c == '!' then q.pushNode? (tag? p)
  else if (c == '|' || c == '>') && !q.inFlow then q.pushBlock? (c == '>')
  else if c == '\'' || c == '"' then
    q.pushNode? ((quoted? c (cs.length + 1) (p.skip 1)).map fun (wording, p) =>
      (.scalar false wording, p))
  else if startsPlain q.inFlow c cs then q.pushPlain?
  else none

/-- Read a token.  In front of a spoilt block, four characters must be left to look at. -/
def read? (q : TokenQueue) : Option TokenQueue := do
  let q := q.skipToToken (q.place.rest.length + 1)
  let q := q.closeBlocks (q.place.column + 1)
  if q.spoilt && (q.place.rest.drop 3).isEmpty then none
  let q ← match q.place.rest with
    | [] => q.pushEnd?
    | c :: cs => q.pushFrom? c cs
  if q.spoilt && q.place.rest.isEmpty then none
  return q

/-- Read until the first token is certain. -/
def fill? : (steps : Nat) → TokenQueue → Option TokenQueue
  | 0, _ => none
  | steps + 1, q =>
    if q.tokens.length < 3 then q.read?.bind (fill? steps)
    else
      match q.headKey? with
      | none => some q
      | some k =>
        if k.isOpen q.place then q.read?.bind (fill? steps)
        else if k.required then none
        else some q

/-- The first token, and the queue with it read. -/
def peek? (q : TokenQueue) : Option (Token × TokenQueue) := do
  let q ← q.fill? (q.place.rest.length + 8)
  return (← q.tokens.head?, q)

def take (q : TokenQueue) : TokenQueue :=
  { q with tokens := q.tokens.tail, taken := q.taken + 1 }

end TokenQueue

end Narrowing.Document
