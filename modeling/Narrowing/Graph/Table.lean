/-
A graph as a table.

One row per node: handle, operator, domain, value, operands.  The columns
are aligned, with a gap of two spaces; every character of a cell takes one
column.  A row without operands ends with its value.  In colour, a cell is
wrapped in the codes of its column, padding included.
-/
import Narrowing.Graph.Basic

namespace Narrowing

inductive Column where
  | handle | tag | domain | value | operands
deriving DecidableEq

namespace Column

/-- The display codes that start and end a cell of the column. -/
def codes : Column → String × String
  | handle => ("94;1", "0;22")
  | tag => ("33;1", "0;22")
  | domain => ("36", "0")
  | value => ("37", "0")
  | operands => ("90", "0")

/-- A cell of the column, in colour or not. -/
def paint (c : Column) (color : Bool) (cell : String) : String :=
  if color then
    "\x1b[" ++ c.codes.1 ++ "m" ++ cell ++ "\x1b[" ++ c.codes.2 ++ "m"
  else cell

end Column

namespace Table

/-- The cells of one row. -/
structure Row where
  handle : String
  tag : String
  domain : String
  value : String
  operands : String

/-- The spaces between two columns. -/
def gap : Nat := 2

/-- The operands that are there, with a space between them. -/
def operandText (n : Node) : String :=
  " ".intercalate (([n.left, n.right].filter (· ≠ .none)).map Handle.text)

/-- The row of the node at a given place. -/
def row (place : Nat) (n : Node) : Row where
  handle := (Handle.ofNat place).text
  tag := n.value.tag.name
  domain := n.value.primary.domain.name
  value := n.value.primary.payload
  operands := operandText n

def width (rows : List Row) (cell : Row → String) : Nat :=
  rows.foldl (fun w r => max w (cell r).length) 0

/-- A cell filled up to the width of its column and the gap. -/
def pad (cell : String) (width : Nat) : String :=
  cell.pushn ' ' (width + gap - cell.length)

/-- The line of a row among the rows of its table. -/
def line (color : Bool) (rows : List Row) (r : Row) : String :=
  let start :=
    Column.handle.paint color (pad r.handle (width rows Row.handle)) ++
    Column.tag.paint color (pad r.tag (width rows Row.tag)) ++
    Column.domain.paint color (pad r.domain (width rows Row.domain))
  if r.operands = "" then start ++ Column.value.paint color r.value
  else
    start ++ Column.value.paint color (pad r.value (width rows Row.value)) ++
      Column.operands.paint color r.operands

end Table

/-- The lines of the table of a graph. -/
def Graph.table (g : Graph) (color : Bool) : List String :=
  let rows := g.nodes.toList.mapIdx Table.row
  rows.map (Table.line color rows)

end Narrowing
