/-
Versions of the settings schema.

A version is up to three numbers with points between them, then a release
name behind a hyphen and build data behind a plus, both in words of
letters, digits and hyphens with points between them.  A leading `v` is
dropped, and a number left out is 0.
-/
import Narrowing.Text.Numeral
import Narrowing.Text.Quoted

namespace Narrowing

structure Version where
  major : Nat
  minor : Nat
  patch : Nat
  /-- the words of the release name, with points between them; empty for a full release -/
  release : String
  /-- the words of the build data, with points between them -/
  build : String
deriving DecidableEq

/-- Why a text is no version. -/
inductive VersionError where
  /-- the text does not have the form of a version -/
  | malformed
  /-- a number does not fit in sixty-four bits -/
  | tooLarge (digits : String)
  /-- a number in the release name starts with a zero -/
  | leadingZero
deriving DecidableEq

namespace VersionError

def message : VersionError → String
  | malformed => "Invalid Semantic Version"
  | tooLarge digits =>
    "Error parsing version segment: strconv.ParseUint: parsing " ++ Text.quoted digits ++
      ": value out of range"
  | leadingZero => "Version segment starts with 0"

end VersionError

namespace Version

def text (v : Version) : String :=
  v.major.repr ++ "." ++ v.minor.repr ++ "." ++ v.patch.repr ++
    (if v.release = "" then "" else "-" ++ v.release) ++
    (if v.build = "" then "" else "+" ++ v.build)

def isWordChar (c : Char) : Bool := c.isDigit || c.isAlpha || c == '-'

/-- The pieces of a text between points. -/
def pieces : List Char → List (List Char)
  | [] => [[]]
  | c :: cs =>
    match pieces cs with
    | p :: ps => if c == '.' then [] :: p :: ps else (c :: p) :: ps
    | [] => [[c]]

/-- Whether a text is one or more words with points between them. -/
def areWords (cs : List Char) : Bool :=
  (pieces cs).all fun w => !w.isEmpty && w.all isWordChar

/-- Whether a word is a number with a needless zero in front. -/
def hasLeadingZero (w : List Char) : Bool :=
  w.all Char.isDigit && 1 < w.length && w.head? == some '0'

/-- The digits in front of a text, and the rest. -/
def digits (cs : List Char) : List Char × List Char :=
  (cs.takeWhile Char.isDigit, cs.dropWhile Char.isDigit)

/-- Further digits behind a point, if there are any. -/
def moreDigits : List Char → List Char × List Char
  | '.' :: cs => if (digits cs).1.isEmpty then ([], '.' :: cs) else digits cs
  | cs => ([], cs)

/-- The value of some digits, which must fit in sixty-four bits. -/
def number (ds : List Char) : Except VersionError Nat :=
  let n := (Text.natIn? 10 ds).getD 0
  if n < UInt64.size then .ok n else .error (.tooLarge (String.ofList ds))

/-- The release name and the build data, from behind the numbers. -/
def tail? (cs : List Char) : Option (List Char × List Char) :=
  let front := cs.takeWhile (· != '+')
  let back := cs.drop front.length
  let release? := match front with
    | [] => some []
    | '-' :: name => if areWords name then some name else none
    | _ => none
  let build? := match back with
    | '+' :: data => if areWords data then some data else none
    | _ => some []
  release?.bind fun r => build?.map fun b => (r, b)

def parse (s : String) : Except VersionError Version := do
  let cs := match s.toList with
    | 'v' :: cs => cs
    | cs => cs
  let (major, rest) := digits cs
  let (minor, rest) := moreDigits rest
  let (patch, rest) := moreDigits rest
  if major.isEmpty then throw .malformed
  match tail? rest with
  | none => throw .malformed
  | some (release, build) =>
    let major ← number major
    let minor ← number minor
    let patch ← number patch
    if (pieces release).any hasLeadingZero then throw .leadingZero
    return ⟨major, minor, patch, String.ofList release, String.ofList build⟩

/-- Whether settings of a version can be read: a full release of major version 1. -/
def isSupported (v : Version) : Bool := v.major == 1 && v.release == ""

/-- The supported versions, in words. -/
def supportedRange : String := "^1.0"

end Version

end Narrowing
