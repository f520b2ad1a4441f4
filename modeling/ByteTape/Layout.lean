import ByteTape.Tape
import ByteTape.Numeral

/-!
# Layouts

A layout lists the numerals of a tape from left to right and says which one the pointer is on.
Triplets are aligned to the pointer. Neighbouring numerals are one spacing triplet apart; before the
first and after the last there may be any amount of free space.

Indices are integers, as on the tape. The alignment is found from the distance between the pointer
and the start of the window. On a tape in memory only this distance can leave the range of words, so
it is computed in an index space. Where the pointer is in reach of the window, that is, where the
distance is a word, both spaces give the same layout (`ofView_word`, `layout_word`).
-/

namespace ByteTape

/-- Why cells have no layout. -/
inductive LayoutFault where
  /-- The triple at `index` is neither a digit nor spacing. -/
  | malformed (index : Int) (cells : Triple)
  /-- No numeral starts at the pointer. -/
  | pointerOff (pointer : Int)
  /-- The numeral at `index` has `spacing` spacing triplets before it, and another numeral before
  those. -/
  | gap (index : Int) (spacing : Nat)
  deriving DecidableEq, Repr

def LayoutFault.message : LayoutFault → String
  | .malformed index ⟨flag, scratch, data⟩ =>
    s!"Malformed triplet at index {index}: [{flag}, {scratch}, {data}]"
  | .pointerOff pointer =>
    s!"Pointer at index {pointer} is not on the leftmost flag of an integer"
  | .gap index spacing =>
    s!"Gap of {spacing} spacing triplets before the integer at index {index}"

/-- Cells to be read, a pointer among them, and the range outside which all cells are 0. -/
structure View where
  cell : Int → UInt8
  pointer : Int
  window? : Option Window

def View.triple (view : View) (index : Int) : Triple :=
  ⟨view.cell index, view.cell (index + 1), view.cell (index + 2)⟩

/-- The indices at which triplets aligned to `pointer` begin and meet the window, in order. -/
def Window.tripletStarts [IndexSpace] (window : Window) (pointer : Int) : List Int :=
  let first := window.low - IndexSpace.wrap (window.low - pointer) % Triplet.width
  (List.range ((window.high - first) / Triplet.width + 1).toNat).map fun (step : Nat) =>
    first + Triplet.width * step

/-- A finite stretch of cells that starts anywhere. -/
structure Strip where
  start : Int
  cells : Array UInt8
  pointer : Int

def Strip.get (strip : Strip) (index : Int) : UInt8 :=
  if strip.start ≤ index then strip.cells.getD (index - strip.start).toNat 0 else 0

def Strip.view (strip : Strip) : View where
  cell := strip.get
  pointer := strip.pointer
  window? :=
    if strip.cells.isEmpty then none
    else some ⟨strip.start, strip.start + strip.cells.size - 1⟩

def Tape.view (tape : Tape) : View where
  cell := tape.get
  pointer := tape.pointer
  window? := tape.written?

/-- Numerals read so far, from left to right. -/
structure Scan where
  /-- Complete numerals, last first. -/
  complete : List Numeral := []
  /-- Start and digits of the numeral being read, last digit first. -/
  current : Option (Int × List UInt8) := none
  /-- Number of spacing triplets read since the last numeral. -/
  spacing : Nat := 0

namespace Scan

/-- Ends the numeral being read, if there is one. -/
def close (scan : Scan) : Scan :=
  match scan.current with
  | some (start, digits) =>
    { complete := ⟨start, digits.reverse⟩ :: scan.complete, current := none, spacing := 0 }
  | none => scan

def feedDigit (scan : Scan) (index : Int) (data : UInt8) : Except LayoutFault Scan :=
  match scan.current with
  | some (start, digits) => .ok { scan with current := some (start, data :: digits) }
  | none =>
    if scan.complete ≠ [] ∧ scan.spacing ≠ 1 then .error (.gap index scan.spacing)
    else .ok { scan with current := some (index, [data]) }

def feedSpacing (scan : Scan) : Scan :=
  let closed := scan.close
  { closed with spacing := closed.spacing + 1 }

/-- Reads on by the triple at `index`. -/
def feed (view : View) (scan : Scan) (index : Int) : Except LayoutFault Scan :=
  let cells := view.triple index
  match Triplet.ofCells? cells with
  | some (.digit data) => scan.feedDigit index data
  | some .spacing => .ok scan.feedSpacing
  | none => .error (.malformed index cells)

def numerals (scan : Scan) : List Numeral := scan.close.complete.reverse

end Scan

/-- Numerals from left to right, and the position among them of the one under the pointer. -/
structure Layout where
  numerals : List Numeral
  active : Nat
  active_lt : active < numerals.length
  deriving DecidableEq, Repr

namespace Layout

def activeNumeral (layout : Layout) : Numeral :=
  layout.numerals.get ⟨layout.active, layout.active_lt⟩

/-- The numbers on the tape, those that fit in a word. -/
def words (layout : Layout) : List (Option Nat) := layout.numerals.map Numeral.word?

/-- Every numeral of the view, active or not. -/
def scan [IndexSpace] (view : View) : Except LayoutFault (List Numeral) :=
  match view.window? with
  | none => .ok []
  | some window => Scan.numerals <$> (window.tripletStarts view.pointer).foldlM (Scan.feed view) {}

/-- The layout of a view. Faults are reported from the left, and a pointer that is on no numeral only
after all others. -/
def ofView [IndexSpace] (view : View) : Except LayoutFault Layout := do
  let numerals ← scan view
  match numerals.findFinIdx? (·.start == view.pointer) with
  | some active => .ok ⟨numerals, active, active.isLt⟩
  | none => .error (.pointerOff view.pointer)

end Layout

namespace Tape

def layout [IndexSpace] (tape : Tape) : Except LayoutFault Layout := Layout.ofView tape.view

def writeNumeral (tape : Tape) (numeral : Numeral) : Tape := tape.write numeral.start numeral.cells

/-- The values side by side from index 0 on, with the pointer on number `active`, or on index 0 if
there are not that many. -/
def ofValues (values : List Nat) (active : Nat) : Tape :=
  let numerals := Numeral.row 0 values
  let pointer := (numerals[active]?.map Numeral.start).getD 0
  (numerals.foldl writeNumeral empty).moveTo pointer

end Tape

end ByteTape
