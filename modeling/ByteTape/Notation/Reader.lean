import ByteTape.Notation.Lexeme
import ByteTape.Tape
import ByteTape.Text.Quoted

/-!
# Reading the tape notation

A text lists the cells of a tape in decimal. One value may stand in brackets and has the pointer, and
one bar may stand before the value at index 0. Without a bar the first value is at index 0; without
brackets the pointer is at index 0.
-/

namespace ByteTape

/-- Why a text is no tape, with the byte offset of the lexeme to blame. -/
inductive NotationFault where
  | duplicatePointer (offset : Nat)
  | duplicateBar (offset : Nat)
  /-- An opening bracket that is not followed by one value and a closing bracket. -/
  | unterminatedPointer (offset : Nat)
  | unexpected (token : List Char) (offset : Nat)
  /-- A number above 255, with its digits as written. -/
  | outOfRange (digits : List Char) (offset : Nat)
  deriving DecidableEq, Repr

def NotationFault.message : NotationFault → String
  | .duplicatePointer offset => s!"Duplicate pointer marker at offset {offset}"
  | .duplicateBar offset => s!"Duplicate zero-index bar at offset {offset}"
  | .unterminatedPointer offset =>
    s!"Pointer marker at offset {offset} must wrap exactly one value"
  | .unexpected token offset =>
    "Unexpected token " ++ Text.quote token ++ s!" at offset {offset}"
  | .outOfRange digits offset =>
    "Cell value " ++ String.ofList digits ++ s!" at offset {offset} does not fit in a byte"

namespace Notation

/-- The byte that a number denotes; leading zeros do not count. -/
def cell (digits : List Char) (offset : Nat) : Except NotationFault UInt8 :=
  let value := Nat.ofDigitChars 10 digits 0
  if value < 256 then .ok (UInt8.ofNat value) else .error (.outOfRange digits offset)

/-- What has been read of a text. -/
structure Draft where
  cells : Array UInt8 := #[]
  /-- How many cells stand before the one in brackets. -/
  pointer? : Option Nat := none
  /-- How many cells stand before the bar. -/
  bar? : Option Nat := none

namespace Draft

def push (draft : Draft) (value : UInt8) : Draft :=
  { draft with cells := draft.cells.push value }

/-- Marks the place of the next cell as the pointer's. -/
def markPointer (draft : Draft) : Draft := { draft with pointer? := some draft.cells.size }

/-- Marks the place of the next cell as index 0. -/
def markBar (draft : Draft) : Draft := { draft with bar? := some draft.cells.size }

def tape (draft : Draft) : Tape :=
  let start : Int := -(draft.bar?.getD 0)
  let pointer : Int :=
    match draft.pointer? with
    | some place => place + start
    | none => 0
  Tape.ofCells start draft.cells.toList pointer

/-- Reads on to the end of the text. The first lexeme that does not fit is to blame, except that an
opening bracket takes the blame for what is missing after it. -/
def extend : Draft → List Lexeme → Except NotationFault Draft
  | draft, [] => .ok draft
  | draft, ⟨.number digits, offset⟩ :: rest => do
    let value ← cell digits offset
    (draft.push value).extend rest
  | draft, ⟨.opening, offset⟩ :: rest =>
    if draft.pointer?.isSome then .error (.duplicatePointer offset)
    else
      match rest with
      | ⟨.number digits, place⟩ :: rest => do
        let value ← cell digits place
        match rest with
        | ⟨.closing, _⟩ :: rest =>
          (draft.markPointer.push value).extend rest
        | _ => .error (.unterminatedPointer offset)
      | _ => .error (.unterminatedPointer offset)
  | draft, ⟨.bar, offset⟩ :: rest =>
    if draft.bar?.isSome then .error (.duplicateBar offset)
    else draft.markBar.extend rest
  | _, ⟨.closing, offset⟩ :: _ => .error (.unexpected Symbol.closing.chars offset)
  | _, ⟨.stray c, offset⟩ :: _ => .error (.unexpected [c] offset)

end Draft

/-- The tape that a text denotes. -/
def read (text : String) : Except NotationFault Tape :=
  Draft.tape <$> Draft.extend {} (Lexeme.scan text)

end Notation

end ByteTape
