/-
# Operators as tables

An operator on sets of signs, or of the two cases of a word, is carried over from single signs
or cases.  Written out for all sets it is a table, with a row for each left and a column for
each right operand.  Here are the tables, and that the operators give their entries.
-/
import Narrowing.Sign
import Narrowing.Zero
import Mathlib.Data.List.Basic

namespace Narrowing

/-- The entry of a table, with the operands in a given order. -/
def entryAt {α : Type} [BEq α] (order : List α) (rows : List (List α)) (a b : α) : Option α :=
  rows[order.idxOf a]?.bind fun row => row[order.idxOf b]?

theorem getElem?_map_idxOf {α β : Type} [BEq α] [LawfulBEq α] {l : List α} {a : α} (h : a ∈ l)
    (f : α → β) : (l.map f)[l.idxOf a]? = some (f a) := by
  rw [List.getElem?_map, List.getElem?_idxOf h, Option.map_some]

/-- A table that an operator fills has its values as entries. -/
theorem entryAt_map {α : Type} [BEq α] [LawfulBEq α] {order : List α} {a b : α} (ha : a ∈ order)
    (hb : b ∈ order) (f : α → α → α) :
    entryAt order (order.map fun a => order.map (f a)) a b = some (f a b) := by
  rw [entryAt, getElem?_map_idxOf ha, Option.bind_some, getElem?_map_idxOf hb]

namespace Sign

theorem mem_all (a : Sign) : a ∈ all := by
  obtain ⟨neg, zero, pos⟩ := a
  cases neg <;> cases zero <;> cases pos <;> decide

/-- The operators that have a table. -/
inductive Table where
  | join | meet | diff | add | mul | div | rem | eq | ne | less

namespace Table

def op : Table → Sign → Sign → Sign
  | .join => Sign.join
  | .meet => Sign.meet
  | .diff => Sign.diff
  | .add => lift2 sgnAdd
  | .mul => lift2 sgnMul
  | .div => lift2 sgnDiv
  | .rem => lift2 sgnRem
  | .eq => compareSigned .eq
  | .ne => compareSigned .ne
  | .less => compareSigned .slt

/-- The rows, in the order of the sets. -/
def rows : Table → List (List Sign)
  | .join =>
    [[bot, ltz, gtz, eqz, nez, gez, lez, top],
     [ltz, ltz, nez, lez, nez, top, lez, top],
     [gtz, nez, gtz, gez, nez, gez, top, top],
     [eqz, lez, gez, eqz, top, gez, lez, top],
     [nez, nez, nez, top, nez, top, top, top],
     [gez, top, gez, gez, top, gez, top, top],
     [lez, lez, top, lez, top, top, lez, top],
     [top, top, top, top, top, top, top, top]]
  | .meet =>
    [[bot, bot, bot, bot, bot, bot, bot, bot],
     [bot, ltz, bot, bot, ltz, bot, ltz, ltz],
     [bot, bot, gtz, bot, gtz, gtz, bot, gtz],
     [bot, bot, bot, eqz, bot, eqz, eqz, eqz],
     [bot, ltz, gtz, bot, nez, gtz, ltz, nez],
     [bot, bot, gtz, eqz, gtz, gez, eqz, gez],
     [bot, ltz, bot, eqz, ltz, eqz, lez, lez],
     [bot, ltz, gtz, eqz, nez, gez, lez, top]]
  | .diff =>
    [[bot, bot, bot, bot, bot, bot, bot, bot],
     [ltz, bot, ltz, ltz, bot, ltz, bot, bot],
     [gtz, gtz, bot, gtz, bot, bot, gtz, bot],
     [eqz, eqz, eqz, bot, eqz, bot, bot, bot],
     [nez, gtz, ltz, nez, bot, ltz, gtz, bot],
     [gez, gez, eqz, gtz, eqz, bot, gtz, bot],
     [lez, eqz, lez, ltz, eqz, ltz, bot, bot],
     [top, gez, lez, nez, eqz, ltz, gtz, bot]]
  | .add =>
    [[bot, bot, bot, bot, bot, bot, bot, bot],
     [bot, ltz, top, ltz, top, top, ltz, top],
     [bot, top, gtz, gtz, top, gtz, top, top],
     [bot, ltz, gtz, eqz, nez, gez, lez, top],
     [bot, top, top, nez, top, top, top, top],
     [bot, top, gtz, gez, top, gez, top, top],
     [bot, ltz, top, lez, top, top, lez, top],
     [bot, top, top, top, top, top, top, top]]
  | .mul =>
    [[bot, bot, bot, bot, bot, bot, bot, bot],
     [bot, gtz, ltz, eqz, nez, lez, gez, top],
     [bot, ltz, gtz, eqz, nez, gez, lez, top],
     [bot, eqz, eqz, eqz, eqz, eqz, eqz, eqz],
     [bot, nez, nez, eqz, nez, top, top, top],
     [bot, lez, gez, eqz, top, gez, lez, top],
     [bot, gez, lez, eqz, top, lez, gez, top],
     [bot, top, top, eqz, top, top, top, top]]
  | .div =>
    [[bot, bot, bot, bot, bot, bot, bot, bot],
     [bot, gez, lez, bot, top, lez, gez, top],
     [bot, lez, gez, bot, top, gez, lez, top],
     [bot, eqz, eqz, bot, eqz, eqz, eqz, eqz],
     [bot, top, top, bot, top, top, top, top],
     [bot, lez, gez, bot, top, gez, lez, top],
     [bot, gez, lez, bot, top, lez, gez, top],
     [bot, top, top, bot, top, top, top, top]]
  | .rem =>
    [[bot, bot, bot, bot, bot, bot, bot, bot],
     [bot, lez, lez, bot, lez, lez, lez, lez],
     [bot, gez, gez, bot, gez, gez, gez, gez],
     [bot, eqz, eqz, bot, eqz, eqz, eqz, eqz],
     [bot, top, top, bot, top, top, top, top],
     [bot, gez, gez, bot, gez, gez, gez, gez],
     [bot, lez, lez, bot, lez, lez, lez, lez],
     [bot, top, top, bot, top, top, top, top]]
  | .eq =>
    [[bot, bot, bot, bot, bot, bot, bot, bot],
     [bot, gez, eqz, eqz, gez, eqz, gez, gez],
     [bot, eqz, gez, eqz, gez, gez, eqz, gez],
     [bot, eqz, eqz, gtz, eqz, gez, gez, gez],
     [bot, gez, gez, eqz, gez, gez, gez, gez],
     [bot, eqz, gez, gez, gez, gez, gez, gez],
     [bot, gez, eqz, gez, gez, gez, gez, gez],
     [bot, gez, gez, gez, gez, gez, gez, gez]]
  | .ne =>
    [[bot, bot, bot, bot, bot, bot, bot, bot],
     [bot, gez, gtz, gtz, gez, gtz, gez, gez],
     [bot, gtz, gez, gtz, gez, gez, gtz, gez],
     [bot, gtz, gtz, eqz, gtz, gez, gez, gez],
     [bot, gez, gez, gtz, gez, gez, gez, gez],
     [bot, gtz, gez, gez, gez, gez, gez, gez],
     [bot, gez, gtz, gez, gez, gez, gez, gez],
     [bot, gez, gez, gez, gez, gez, gez, gez]]
  | .less =>
    [[bot, bot, bot, bot, bot, bot, bot, bot],
     [bot, gez, gtz, gtz, gez, gtz, gez, gez],
     [bot, eqz, gez, eqz, gez, gez, eqz, gez],
     [bot, eqz, gtz, eqz, gez, gez, eqz, gez],
     [bot, gez, gez, gez, gez, gez, gez, gez],
     [bot, eqz, gez, eqz, gez, gez, eqz, gez],
     [bot, gez, gtz, gez, gez, gez, gez, gez],
     [bot, gez, gez, gez, gez, gez, gez, gez]]

theorem rows_eq (t : Table) : t.rows = all.map fun a => all.map (t.op a) := by
  cases t <;> rfl

/-- Every entry of a table is what the operator gives for its row and column. -/
theorem entryAt_rows (t : Table) (a b : Sign) : entryAt all t.rows a b = some (t.op a b) := by
  rw [rows_eq, entryAt_map (mem_all a) (mem_all b)]

end Table

/-- The opposites and the complements have one row each. -/
theorem unary_rows :
    all.map complement = [top, gez, lez, nez, eqz, ltz, gtz, bot] ∧
    all.map negate = [bot, gtz, ltz, eqz, nez, lez, gez, top] :=
  ⟨rfl, rfl⟩

end Sign

namespace Zero

/-- The sets that have a case. -/
def proper : List Zero := [isZero, isNonzero, unknown]

theorem mem_proper {a : Zero} (ha : a ≠ bottom) : a ∈ proper := by
  obtain ⟨zero, nonzero⟩ := a
  cases zero <;> cases nonzero <;> first | decide | exact absurd rfl ha

/-- The operators that have a table. -/
inductive Table where
  | add | mul | shift | and | or | xor | eq | ne | above | atLeast | signedAbove | signedAtLeast

namespace Table

def op : Table → Zero → Zero → Zero
  | .add | .xor => lift2 caseAdd
  | .mul | .and => lift2 caseMul
  | .shift => lift2 caseShift
  | .or => lift2 caseOr
  | .eq => compare .eq
  | .ne => compare .ne
  | .above => compare .ugt
  | .atLeast => compare .uge
  | .signedAbove => compare .sgt
  | .signedAtLeast => compare .sge

/-- The rows, in the order of the sets that have a case. -/
def rows : Table → List (List Zero)
  | .add =>
    [[isZero, isNonzero, unknown],
     [isNonzero, unknown, unknown],
     [unknown, unknown, unknown]]
  | .mul =>
    [[isZero, isZero, isZero],
     [isZero, unknown, unknown],
     [isZero, unknown, unknown]]
  | .shift =>
    [[isZero, isZero, isZero],
     [isNonzero, unknown, unknown],
     [unknown, unknown, unknown]]
  | .and =>
    [[isZero, isZero, isZero],
     [isZero, unknown, unknown],
     [isZero, unknown, unknown]]
  | .or =>
    [[isZero, isNonzero, unknown],
     [isNonzero, isNonzero, isNonzero],
     [unknown, isNonzero, unknown]]
  | .xor =>
    [[isZero, isNonzero, unknown],
     [isNonzero, unknown, unknown],
     [unknown, unknown, unknown]]
  | .eq =>
    [[isNonzero, isZero, unknown],
     [isZero, unknown, unknown],
     [unknown, unknown, unknown]]
  | .ne =>
    [[isZero, isNonzero, unknown],
     [isNonzero, unknown, unknown],
     [unknown, unknown, unknown]]
  | .above =>
    [[isZero, isZero, isZero],
     [isNonzero, unknown, unknown],
     [unknown, unknown, unknown]]
  | .atLeast =>
    [[isNonzero, isZero, unknown],
     [isNonzero, unknown, unknown],
     [isNonzero, unknown, unknown]]
  | .signedAbove =>
    [[isZero, unknown, unknown],
     [unknown, unknown, unknown],
     [unknown, unknown, unknown]]
  | .signedAtLeast =>
    [[isNonzero, unknown, unknown],
     [unknown, unknown, unknown],
     [unknown, unknown, unknown]]

theorem rows_eq (t : Table) : t.rows = proper.map fun a => proper.map (t.op a) := by
  cases t <;> rfl

/-- Every entry of a table is what the operator gives for its row and column. -/
theorem entryAt_rows (t : Table) {a b : Zero} (ha : a ≠ bottom) (hb : b ≠ bottom) :
    entryAt proper t.rows a b = some (t.op a b) := by
  rw [rows_eq, entryAt_map (mem_proper ha) (mem_proper hb)]

end Table

end Zero

end Narrowing
