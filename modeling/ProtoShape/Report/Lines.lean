import ProtoShape.Report.Item
import ProtoShape.Text.Basic

/-!
# Items on a plain console

A console without styles shows an item as lines.  The body of a panel is indented
below its title, the cells of a column stand below each other, and what is live is
not shown.
-/

namespace ProtoShape.Report

/-- The lines of a text. -/
def linesOf (s : String) : List String := (Text.split '\n' s.toList).map String.ofList

/-- A text without the marks of styles. -/
def withoutMarks (s : String) : String :=
  ["[red]", "[/red]", "[orange1]", "[/orange1]"].foldl
    (fun s (mark : String) => s.replace mark "") s

/-- The text of a cell. -/
def Cell.plainText : Cell → String
  | text s => s
  | styled t => t.text

/-- A text filled with spaces up to a width, on the side that `side` says. -/
def fill (side : Justify) (width : Nat) (s : String) : String :=
  let gap := String.ofList (List.replicate (width - s.length) ' ')
  match side with
  | .left => s ++ gap
  | .right => gap ++ s

/-- The lines of a table. -/
def Table.lines (t : Table) : List String :=
  let rows := t.columns.map (·.1) :: t.rows.map (·.map Cell.plainText)
  let sides := t.columns.map (·.2)
  let widths := (List.range t.columns.length).map fun index =>
    rows.foldl (fun width row => max width ((row[index]?).getD "").length) 0
  t.title.toList ++ rows.map fun row =>
    "  ".intercalate ((sides.zip (widths.zip row)).map fun (side, width, s) => fill side width s)

mutual
/-- The lines of an item. -/
def Item.lines : Item → List String
  | .line s => linesOf (withoutMarks s)
  | .styled t => linesOf t.text
  | .panel title body => withoutMarks title :: body.lines.map ("  " ++ ·)
  | .table t => t.lines
  | .group items => itemLines items
  | .json text => [text]
  | .live _ => []
  | .liveEnd => []

/-- The lines of several items. -/
def itemLines : List Item → List String
  | [] => []
  | item :: rest => item.lines ++ itemLines rest
end

end ProtoShape.Report
