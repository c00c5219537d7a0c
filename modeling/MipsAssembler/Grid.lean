import MipsAssembler.Text.Terminal

/-!
# Grids

A grid is a titled table drawn with dashes, bars and plus signs. Columns are as wide as their widest
cell or header, and each cell has one space on both sides. The width of a cell is the room it takes
on a terminal.
-/

namespace MipsAssembler

/-- The side of a cell its text stands at. -/
inductive Alignment where
  | left | right
  deriving DecidableEq, Repr

/-- A column of a grid. -/
structure Column where
  /-- Its header. -/
  header : Bytes
  /-- Where the text of its cells and its header stands. -/
  alignment : Alignment := .left
  deriving DecidableEq, Repr

/-- A titled table. -/
structure Grid where
  /-- The title. -/
  title : Bytes
  /-- The columns. -/
  columns : List Column
  /-- The cells, row by row. -/
  rows : List (List Bytes)
  deriving DecidableEq, Repr

namespace Grid

/-- A text filled up with spaces to a width, in place of the spaces it has on that side. -/
def pad (alignment : Alignment) (n : Nat) (text : Bytes) : Bytes :=
  match alignment with
  | .left =>
    let bare := (text.reverse.dropWhile (· == Ascii.space)).reverse
    bare ++ List.replicate (n - Terminal.columns bare) Ascii.space
  | .right =>
    let bare := text.dropWhile (· == Ascii.space)
    List.replicate (n - Terminal.columns bare) Ascii.space ++ bare

/-- The header row. -/
def header (g : Grid) : List Bytes :=
  g.columns.map (·.header)

/-- The cells as they are shown. -/
def shownRows (g : Grid) : List (List Bytes) :=
  g.rows.map (·.map Terminal.settled)

/-- The width of each column. -/
def widths (g : Grid) : List Nat :=
  g.shownRows.foldl (fun widths row => List.zipWith max widths (row.map Terminal.columns))
    (g.header.map Terminal.columns)

/-- Texts between bars. -/
def barred (mark : UInt8) (parts : List Bytes) : Bytes :=
  mark :: [mark].intercalate parts ++ [mark]

/-- A row between bars. -/
def renderRow (g : Grid) (widths : List Nat) (cells : List Bytes) : Bytes :=
  let padded := List.zipWith (fun (c, n) text => pad c.alignment n text)
    (g.columns.zip widths) cells
  barred 0x7c (padded.map fun text => Ascii.space :: text ++ [Ascii.space])

/-- The rule between rows. -/
def rule (widths : List Nat) : Bytes :=
  barred 0x2b (widths.map fun n => List.replicate (n + 2) Ascii.minus)

/-- The width of a grid between its outer bars. -/
def inner (widths : List Nat) : Nat :=
  (rule widths).length - 2

/-- The grid as lines. -/
def lines (g : Grid) : List Bytes :=
  let widths := g.widths
  let inner := inner widths
  let rule := rule widths
  [barred 0x2b [List.replicate inner Ascii.minus],
    barred 0x7c [Ascii.space :: pad .left (inner - 2) g.title ++ [Ascii.space]],
    rule,
    g.renderRow widths g.header,
    rule] ++
  g.shownRows.map (g.renderRow widths) ++ [rule]

/-- The grid as text. -/
def render (g : Grid) : Bytes :=
  g.lines.flatMap fun line => line ++ [Ascii.newline]

end Grid

end MipsAssembler
