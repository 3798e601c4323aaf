/-
Places in the text of a YAML document, and the characters it tells apart.

A text is read in blocks of 512 bytes.  A character that a document may
not hold spoils its whole block, so a text can be read up to the block
before it.
-/
namespace Narrowing.Document

/-! ## Characters -/

/-- The mark of the byte order, which may stand in front of a text. -/
def orderMark : Char := '\uFEFF'

/-- Whether a document may hold a character. -/
def isAllowed (c : Char) : Bool :=
  let n := c.toNat
  n == 0x09 || n == 0x0A || n == 0x0D || (0x20 ≤ n && n ≤ 0x7E) || n == 0x85 ||
  (0xA0 ≤ n && n ≤ 0xD7FF) || (0xE000 ≤ n && n ≤ 0xFFFD) || 0x10000 ≤ n

/-- A space or a tab. -/
def isBlank (c : Char) : Bool := c == ' ' || c == '\t'

/-- A character that ends a line. -/
def isBreak (c : Char) : Bool := c ∈ ['\n', '\x0d', '\u0085', '\u2028', '\u2029']

/-- Whether a word ends in front of a text: at a blank, a line break or the end. -/
def endsWord : List Char → Bool
  | [] => true
  | c :: _ => isBlank c || isBreak c

/-- The line break that a text starts with: the character it counts for, and its length.
Only the separators of lines and paragraphs keep their own character. -/
def breakAt? : List Char → Option (Char × Nat)
  | [] => none
  | '\x0d' :: '\n' :: _ => some ('\n', 2)
  | c :: _ =>
    if c == '\u2028' || c == '\u2029' then some (c, 1)
    else if isBreak c then some ('\n', 1)
    else none

/-- Whether a character may stand in the name of an anchor, a tag or a directive. -/
def isNameChar (c : Char) : Bool := c.isAlphanum || c == '_' || c == '-'

/-! ## Blocks -/

/-- The size of a block, in bytes. -/
def blockSize : Nat := 512

/-- What can be read of a text. -/
structure Readable where
  /-- the characters up to the first block that is spoilt -/
  text : List Char
  /-- whether there is such a block -/
  spoilt : Bool

/-- The readable part of a text.  `done` holds the blocks before and `block` the characters
of this one, both from back to front; `size` is the size of the latter in bytes. -/
def readableFrom (done block : List Char) (size : Nat) : List Char → Readable
  | [] => ⟨(block ++ done).reverse, false⟩
  | c :: cs =>
    let full := blockSize < size + c.utf8Size
    if isAllowed c then
      if full then readableFrom (block ++ done) [c] c.utf8Size cs
      else readableFrom done (c :: block) (size + c.utf8Size) cs
    else ⟨(if full then block ++ done else done).reverse, true⟩

/-- How many characters of a text stand in its first block, of which `size` bytes are taken. -/
def firstBlock (size : Nat) : List Char → Nat
  | [] => 0
  | c :: cs =>
    if blockSize < size + c.utf8Size then 0 else firstBlock (size + c.utf8Size) cs + 1

/-! ## Places -/

/-- A place in a text: what follows it, how many characters stand before it, and its line
and column. -/
structure Place where
  rest : List Char
  index : Nat
  line : Nat
  column : Nat

namespace Place

def start (text : List Char) : Place := ⟨text, 0, 0, 0⟩

/-- The place some characters on, in the same line. -/
def skip (p : Place) (n : Nat) : Place := ⟨p.rest.drop n, p.index + n, p.line, p.column + n⟩

/-- The place behind a line break of a given length. -/
def nextLine (p : Place) (length : Nat) : Place :=
  ⟨p.rest.drop length, p.index + length, p.line + 1, 0⟩

/-- The place behind all characters of a kind, in the same line. -/
def skipWhile (p : Place) (kind : Char → Bool) : Place := p.skip (p.rest.takeWhile kind).length

def lineEnd (p : Place) : Place := p.skipWhile fun c => !isBreak c

def sees (p : Place) (c : Char) : Bool := p.rest.head? == some c

/-- The place behind blanks and line breaks. -/
def skipGap : (steps : Nat) → Place → Place
  | 0, p => p
  | steps + 1, p =>
    match breakAt? p.rest with
    | some (_, length) => skipGap steps (p.nextLine length)
    | none => if p.rest.head?.any isBlank then skipGap steps (p.skip 1) else p

/-- Three of a character at the start of a line, as a word. -/
def atTriple (c : Char) (p : Place) : Bool :=
  p.column == 0 && p.rest.take 3 == [c, c, c] && endsWord (p.rest.drop 3)

/-- Whether a document starts or ends here: at three hyphens or three dots. -/
def atMarker (p : Place) : Bool := p.atTriple '-' || p.atTriple '.'

/-! ## Comments -/

/-- The longest gap that is searched for a comment, in characters. -/
def commentReach : Nat := 512

/-- Skip a comment behind a word in the same line. -/
def skipLineComment (p : Place) : Place :=
  let blanks := (p.rest.takeWhile isBlank).length
  if blanks < commentReach && (p.skip blanks).sees '#' then (p.skip blanks).lineEnd else p

/-- Skip a comment and those in the lines that follow, whatever blanks stand before them. -/
def skipComments : (steps : Nat) → Place → Place
  | 0, p => p
  | steps + 1, p =>
    let p := p.lineEnd
    let gap := (p.rest.takeWhile fun c => isBlank c || c == '\n' || c == '\x0d').length
    if gap < commentReach && (p.skip gap).sees '#' then skipComments steps (p.skipGap gap) else p

end Place

end Narrowing.Document
