/-
The wording of scalars.

A scalar is plain, or stands between quotes, or is a block of lines.  Where
it goes on over a line break, the break becomes a space, and each further
one stays a line break.  Every reader gives the wording and the place
behind it, or nothing where the text is malformed.
-/
import Narrowing.Document.Place
import Narrowing.Text.Numeral

namespace Narrowing.Document

/-! ## Gaps between words -/

/-- What stands between two words of a scalar. -/
inductive Gap where
  /-- blanks in one line -/
  | blanks (cs : List Char)
  /-- line breaks, the first of which is left out where it is escaped -/
  | breaks (first : Option Char) (more : List Char)

namespace Gap

def isBroken : Gap → Bool
  | blanks _ => false
  | breaks _ _ => true

/-- A gap, and one more blank.  Blanks behind a line break do not count. -/
def addBlank (c : Char) : Gap → Gap
  | blanks cs => blanks (cs ++ [c])
  | g => g

/-- A gap, and one more line break.  Blanks before a line break do not count. -/
def addBreak (c : Char) : Gap → Gap
  | blanks _ => breaks (some c) []
  | breaks first more => breaks first (more ++ [c])

/-- What a gap amounts to in the wording. -/
def wording : Gap → List Char
  | blanks cs => cs
  | breaks (some '\n') [] => [' ']
  | breaks (some '\n') more => more
  | breaks first more => first.toList ++ more

/-- Read a gap.  Behind a line break, a tab left of the margin is not allowed. -/
def read? (margin : Nat) : (steps : Nat) → Gap → Place → Option (Gap × Place)
  | 0, g, p => some (g, p)
  | steps + 1, g, p =>
    match breakAt? p.rest with
    | some (c, length) => read? margin steps (g.addBreak c) (p.nextLine length)
    | none =>
      match p.rest with
      | [] => some (g, p)
      | c :: _ =>
        if !isBlank c then some (g, p)
        else if g.isBroken && c == '\t' && p.column < margin then none
        else read? margin steps (g.addBlank c) (p.skip 1)

end Gap

/-! ## Plain scalars -/

def isFlowIndicator (c : Char) : Bool := c ∈ [',', '?', '[', ']', '\x7b', '\x7d']

/-- The length of the word of a plain scalar that a text starts with. -/
def plainWord (flow : Bool) : List Char → Nat
  | [] => 0
  | c :: cs =>
    if isBlank c || isBreak c || (c == ':' && endsWord cs) || (flow && isFlowIndicator c) then 0
    else plainWord flow cs + 1

/-- A plain scalar: its wording, the gap behind it and the place behind that gap.  Outside
brackets it goes on as long as the lines are not left of the margin.  `g` is the gap before
the next word. -/
def plain? (flow : Bool) (margin : Nat) : (steps : Nat) → (g : Gap) → Place →
    Option (List Char × Gap × Place)
  | 0, _, _ => none
  | steps + 1, g, p =>
    if p.atMarker || p.sees '#' then some ([], g, p)
    else do
      let length := plainWord flow p.rest
      let here := p.skip length
      let (words, g) :=
        if length = 0 then ([], g) else (g.wording ++ p.rest.take length, .blanks [])
      if here.rest.isEmpty || !endsWord here.rest then return (words, g, here)
      let (g, next) ← g.read? margin here.rest.length here
      if !flow && next.column < margin then return (words, g, next)
      let (more, g, last) ← plain? flow margin steps g next
      return (words ++ more, g, last)

/-! ## Quoted scalars -/

def hexChar? (digits : List Char) : Option Char := do
  let n ← Text.natIn? 16 digits
  if h : n.isValidChar then some (Char.ofNatAux n h) else none

/-- The character of an escape, and the length of what stands behind the backslash. -/
def escape? : List Char → Option (Char × Nat)
  | [] => none
  | c :: cs =>
    let hex (width : Nat) : Option (Char × Nat) :=
      if cs.length < width then none
      else (hexChar? (cs.take width)).map fun d => (d, width + 1)
    let one (n : Nat) : Option (Char × Nat) := some (Char.ofNat n, 1)
    match c with
    | '0' => one 0
    | 'a' => one 7
    | 'b' => one 8
    | 't' => one 9
    | '\t' => one 9
    | 'n' => one 10
    | 'v' => one 11
    | 'f' => one 12
    | 'r' => one 13
    | 'e' => one 27
    | ' ' => one 32
    | '"' => one 34
    | '\'' => one 39
    | '\\' => one 92
    | 'N' => one 0x85
    | '_' => one 0xA0
    | 'L' => one 0x2028
    | 'P' => one 0x2029
    | 'x' => hex 2
    | 'u' => hex 4
    | 'U' => hex 8
    | _ => none

/-- A word of a quoted scalar: its wording, the gap that starts behind it, which is broken
where an escaped line break ends the word, and the place there. -/
def quotedWord? (quote : Char) : (steps : Nat) → Place → Option (List Char × Gap × Place)
  | 0, p => some ([], .blanks [], p)
  | steps + 1, p =>
    match p.rest with
    | [] => some ([], .blanks [], p)
    | c :: cs =>
      let goOn (d : Char) (length : Nat) : Option (List Char × Gap × Place) :=
        (quotedWord? quote steps (p.skip length)).map fun (word, g, q) => (d :: word, g, q)
      if isBlank c || isBreak c then some ([], .blanks [], p)
      else if c == quote then
        if c == '\'' && cs.head? == some '\'' then goOn c 2 else some ([], .blanks [], p)
      else if quote == '"' && c == '\\' then
        match breakAt? cs with
        | some (_, length) => some ([], .breaks none [], (p.skip 1).nextLine length)
        | none => (escape? cs).bind fun (d, length) => goOn d (length + 1)
      else goOn c 1

/-- A quoted scalar, from behind its opening quote.  The marker of a document must not stand
in it. -/
def quoted? (quote : Char) : (steps : Nat) → Place → Option (List Char × Place)
  | 0, _ => none
  | steps + 1, p =>
    if p.atMarker || p.rest.isEmpty then none
    else do
      let (word, g, here) ← quotedWord? quote p.rest.length p
      if here.sees quote then return (word, here.skip 1)
      let (g, next) ← g.read? 0 here.rest.length here
      let (more, last) ← quoted? quote steps next
      return (word ++ g.wording ++ more, last)

/-! ## Blocks of lines -/

/-- What happens to the line breaks at the end of a block. -/
inductive Chomp where
  /-- one is kept -/
  | clip
  /-- none is kept -/
  | strip
  /-- all are kept -/
  | keep
deriving DecidableEq

namespace Chomp

/-- The sign that asks for it. -/
def ofSign? : Char → Option Chomp
  | '+' => some keep
  | '-' => some strip
  | _ => none

/-- What is kept of the first line break and of those that follow it. -/
def wording (first more : List Char) : Chomp → List Char
  | strip => []
  | clip => first
  | keep => first ++ more

end Chomp

/-- The head of a block: what happens at its end, its indentation where that is given, and
the place behind. -/
def blockHead? (p : Place) : Option (Chomp × Option Nat × Place) :=
  let sign (p : Place) : Option Chomp := p.rest.head?.bind Chomp.ofSign?
  let digit (p : Place) : Option Nat := p.rest.head?.bind (Text.digitValue? 10)
  let ok (chomp : Chomp) (depth : Option Nat) (p : Place) : Option (Chomp × Option Nat × Place) :=
    if depth = some 0 then none else some (chomp, depth, p)
  match sign p, digit p with
  | some chomp, _ =>
    match digit (p.skip 1) with
    | some n => ok chomp (some n) (p.skip 2)
    | none => ok chomp none (p.skip 1)
  | none, some n =>
    match sign (p.skip 1) with
    | some chomp => ok chomp (some n) (p.skip 2)
    | none => ok .clip (some n) (p.skip 1)
  | none, none => ok .clip none p

/-- Read empty lines and the indentation of the line behind them: the widest indentation
met, the line breaks, and the place behind.  With no indentation given, all spaces count. -/
def blockGap? (indent : Option Nat) : (steps : Nat) → (widest : Nat) → (breaks : List Char) →
    Place → Option (Nat × List Char × Place)
  | 0, _, _, _ => none
  | steps + 1, widest, breaks, p =>
    let inside (column : Nat) : Bool := indent.all fun n => column < n
    let spaces := (p.rest.takeWhile (· == ' ')).length
    let p := p.skip (indent.elim spaces fun n => min spaces (n - p.column))
    let widest := max widest p.column
    if inside p.column && p.sees '\t' then none
    else
      match breakAt? p.rest with
      | some (c, length) => blockGap? indent steps widest (breaks ++ [c]) (p.nextLine length)
      | none => some (widest, breaks, p)

/-- The lines of a block with a given indentation: their wording, the last line break, the
empty lines behind it, and the place behind.  `first` is the line break before this line,
`breaks` the empty lines, and `blank` tells whether the line before started with a blank. -/
def blockLines? (folded : Bool) (indent : Nat) : (steps : Nat) → (blank : Bool) →
    (first breaks : List Char) → Place → Option (List Char × List Char × List Char × Place)
  | 0, _, _, _, _ => none
  | steps + 1, blank, first, breaks, p =>
    if p.column ≠ indent || p.rest.isEmpty then some ([], first, breaks, p)
    else do
      let blankNow := p.rest.head?.any isBlank
      let join :=
        if folded && !blank && !blankNow && first == ['\n'] then
          if breaks.isEmpty then [' '] else []
        else first
      let here := p.lineEnd
      let line := p.rest.take (here.column - p.column)
      let (firstNext, next) := match breakAt? here.rest with
        | some (c, length) => ([c], here.nextLine length)
        | none => ([], here)
      let (_, breaksNext, next) ← blockGap? (some indent) (next.rest.length + 1) 0 [] next
      let (more, lastBreak, empty, last) ←
        blockLines? folded indent steps blankNow firstNext breaksNext next
      return (join ++ breaks ++ line ++ more, lastBreak, empty, last)

/-- A block of lines, from behind its indicator.  The lines are right of the margin, by the
indentation given or else by that of the first line. -/
def block? (folded : Bool) (margin : Nat) (p : Place) : Option (List Char × Place) := do
  let (chomp, depth, p) ← blockHead? p
  let p := p.skipWhile isBlank
  let p := if p.sees '#' then p.lineEnd else p
  let p ← match breakAt? p.rest with
    | some (_, length) => some (p.nextLine length)
    | none => if p.rest.isEmpty then some p else none
  let given := depth.map fun n => margin - 1 + n
  let (widest, breaks, p) ← blockGap? given (p.rest.length + 1) 0 [] p
  let indent := given.getD (max widest (max margin 1))
  let (text, first, more, p) ←
    blockLines? folded indent (p.rest.length + 1) false [] breaks p
  return (text ++ chomp.wording first more, p)

end Narrowing.Document
