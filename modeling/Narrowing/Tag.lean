/-
Operator tags.

A tag names the operator that produced an abstract value.  The tags are
grouped by the shape of their forward function: arithmetic, relations,
casts, floating point, memory.  Each of the sixty-two known tags has a
number, its place in `Tag.known`; a number past the end is kept as
`Tag.beyond`, which belongs to no group and which no operator accepts.
-/
import Narrowing.Text.Numeral

namespace Narrowing

/-- Integer arithmetic and bitwise operators. -/
inductive Arith where
  | add | sub | mul | sdiv | udiv | srem | urem
  | and | or | xor | shl | lshr | ashr
deriving DecidableEq

/-- Integer comparisons: equality, then signed and unsigned order. -/
inductive Relation where
  | eq | ne
  | slt | sle | sgt | sge
  | ult | ule | ugt | uge
deriving DecidableEq

/-- Changes of width or kind. -/
inductive Cast where
  | zext | sext | trunc | zfit | inttoptr | ptrtoint
deriving DecidableEq

/-- Floating-point operators, comparisons and conversions. -/
inductive FloatOp where
  | fadd | fsub | fmul | fdiv | frem | fneg
  | foeq | fone | folt | fole | fogt | foge
  | fptrunc | fpext | fptosi | fptoui | sitofp | uitofp
deriving DecidableEq

/-- Bit-level and memory operators. -/
inductive MemoryOp where
  | concat | extract | alloca | load | store | malloc | realloc | free | dealloca
deriving DecidableEq

/-- The operator a value was produced by. -/
inductive Tag where
  | unknown
  | any
  | lift
  | lower
  | join
  | meet
  | arith (op : Arith)
  | relation (rel : Relation)
  | cast (c : Cast)
  | float (op : FloatOp)
  | memory (op : MemoryOp)
  | beyond (code : UInt8)
deriving DecidableEq

/-- Groups of tags with one shape of forward function. -/
inductive OpClass where
  | special | binary | compare | cast | float | memory
deriving DecidableEq

namespace OpClass

def code : OpClass → Nat
  | special => 0
  | binary => 1
  | compare => 2
  | cast => 3
  | float => 4
  | memory => 5

end OpClass

namespace Arith

def name : Arith → String
  | add => "add" | sub => "sub" | mul => "mul"
  | sdiv => "sdiv" | udiv => "udiv" | srem => "srem" | urem => "urem"
  | and => "and" | or => "or" | xor => "xor"
  | shl => "shl" | lshr => "lshr" | ashr => "ashr"

/-- Unsigned division read as signed division. -/
def signed : Arith → Arith
  | udiv => sdiv
  | urem => srem
  | op => op

end Arith

namespace Relation

def name : Relation → String
  | eq => "eq" | ne => "ne"
  | slt => "slt" | sle => "sle" | sgt => "sgt" | sge => "sge"
  | ult => "ult" | ule => "ule" | ugt => "ugt" | uge => "uge"

/-- The relation that holds with the operands exchanged: `a < b` is `b > a`. -/
def swap : Relation → Relation
  | slt => sgt | sle => sge | sgt => slt | sge => sle
  | ult => ugt | ule => uge | ugt => ult | uge => ule
  | rel => rel

/-- The relation that holds exactly where this one fails. -/
def negate : Relation → Relation
  | eq => ne | ne => eq
  | slt => sge | sle => sgt | sgt => sle | sge => slt
  | ult => uge | ule => ugt | ugt => ule | uge => ult

/-- An unsigned order read as the signed order. -/
def signed : Relation → Relation
  | ult => slt | ule => sle | ugt => sgt | uge => sge
  | rel => rel

/-- A signed order read as the unsigned order. -/
def unsigned : Relation → Relation
  | slt => ult | sle => ule | sgt => ugt | sge => uge
  | rel => rel

end Relation

namespace Cast

def name : Cast → String
  | zext => "zext" | sext => "sext" | trunc => "trunc" | zfit => "zfit"
  | inttoptr => "inttoptr" | ptrtoint => "ptrtoint"

end Cast

namespace FloatOp

def name : FloatOp → String
  | fadd => "fadd" | fsub => "fsub" | fmul => "fmul" | fdiv => "fdiv"
  | frem => "frem" | fneg => "fneg"
  | foeq => "foeq" | fone => "fone" | folt => "folt" | fole => "fole"
  | fogt => "fogt" | foge => "foge"
  | fptrunc => "fptrunc" | fpext => "fpext" | fptosi => "fptosi"
  | fptoui => "fptoui" | sitofp => "sitofp" | uitofp => "uitofp"

def isCompare : FloatOp → Bool
  | foeq | fone | folt | fole | fogt | foge => true
  | _ => false

def isConversion : FloatOp → Bool
  | fptrunc | fpext | fptosi | fptoui | sitofp | uitofp => true
  | _ => false

end FloatOp

namespace MemoryOp

def name : MemoryOp → String
  | concat => "concat" | extract => "extract" | alloca => "alloca"
  | load => "load" | store => "store" | malloc => "malloc"
  | realloc => "realloc" | free => "free" | dealloca => "dealloca"

end MemoryOp

namespace Tag

/-- The written name; a tag past the end has none of its own. -/
def name : Tag → String
  | unknown => "unknown"
  | any => "any"
  | lift => "lift"
  | lower => "lower"
  | join => "join"
  | meet => "meet"
  | arith op => op.name
  | relation rel => rel.name
  | cast c => c.name
  | float op => op.name
  | memory op => op.name
  | beyond _ => "invalid"

/-- The known tags, each at the place of its number. -/
def known : List Tag :=
  [unknown, any, lift, lower, join, meet] ++
  [.add, .sub, .mul, .sdiv, .udiv, .srem, .urem,
    .and, .or, .xor, .shl, .lshr, .ashr].map arith ++
  [.eq, .ne, .slt, .sle, .sgt, .sge, .ult, .ule, .ugt, .uge].map relation ++
  [.zext, .sext, .trunc, .zfit, .inttoptr, .ptrtoint].map cast ++
  [.fadd, .fsub, .fmul, .fdiv, .frem, .fneg,
    .foeq, .fone, .folt, .fole, .fogt, .foge,
    .fptrunc, .fpext, .fptosi, .fptoui, .sitofp, .uitofp].map float ++
  [.concat, .extract, .alloca, .load, .store,
    .malloc, .realloc, .free, .dealloca].map memory

def ofCode (code : UInt8) : Tag :=
  known.getD code.toNat (beyond code)

def code : Tag → Nat
  | beyond c => c.toNat
  | tag => known.idxOf tag

def ofName? (name : String) : Option Tag :=
  known.find? fun tag => tag.name == name

/-- The tag written by its name, or as `#` and its number. -/
def ofText? (s : String) : Option Tag :=
  match s.toList with
  | '#' :: digits => ((Text.natural? digits).filter (· < 256)).map fun n => ofCode (UInt8.ofNat n)
  | _ => ofName? s

def isValid : Tag → Bool
  | beyond _ => false
  | _ => true

/-- The shape of the tag's forward function. -/
def opClass : Tag → OpClass
  | join | meet | arith _ => .binary
  | relation _ => .compare
  | cast _ => .cast
  | float _ => .float
  | memory _ => .memory
  | unknown | any | lift | lower | beyond _ => .special

def isCompare : Tag → Bool
  | relation _ => true
  | float op => op.isCompare
  | _ => false

/-- The tag that holds with the operands exchanged. -/
def swap : Tag → Tag
  | relation rel => relation rel.swap
  | tag => tag

/-- The comparison that holds when this one is false. -/
def negate : Tag → Tag
  | relation rel => relation rel.negate
  | tag => tag

/-- An unsigned comparison or division read as its signed counterpart. -/
def signed : Tag → Tag
  | relation rel => relation rel.signed
  | arith op => arith op.signed
  | tag => tag

end Tag

end Narrowing
