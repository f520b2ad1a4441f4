import ByteTape.Opcode
import ByteTape.Code

/-!
# Source text of the assembly language

Commands are single characters. A comment runs from the comment marker to the end of its line, and
every other character is skipped. Each command keeps its byte offset, from which its place is found
when there is a fault to report.
-/

namespace ByteTape.Source

/-- A command and its byte offset. -/
structure Token where
  op : Opcode
  start : Nat
  deriving DecidableEq, Repr

/-- Every command is one byte long. -/
def Token.stop (token : Token) : Nat := token.start + 1

/-- The commands of a text that stands at `offset`, inside a comment or not. -/
def scanFrom : Bool → Nat → List Char → List Token
  | _, _, [] => []
  | comment, offset, c :: rest =>
    let next := offset + c.utf8Size
    if comment then scanFrom (c ≠ '\n') next rest
    else if c = Code.commentMarker then scanFrom true next rest
    else
      match Opcode.ofChar? c with
      | some op => ⟨op, offset⟩ :: scanFrom false next rest
      | none => scanFrom false next rest

def scan (text : String) : List Token := scanFrom false 0 text.toList

/-- A line and a column, both counted from 1; columns count characters. -/
structure Place where
  line : Nat
  column : Nat
  deriving DecidableEq, Repr

/-- The place of the character `offset` bytes into a text that begins at `place`. -/
def Place.advance (place : Place) : List Char → Nat → Place
  | [], _ => place
  | c :: rest, offset =>
    if offset = 0 then place
    else if c = '\n' then Place.advance ⟨place.line + 1, 1⟩ rest (offset - c.utf8Size)
    else Place.advance ⟨place.line, place.column + 1⟩ rest (offset - c.utf8Size)

def Place.ofOffset (text : String) (offset : Nat) : Place :=
  Place.advance ⟨1, 1⟩ text.toList offset

end ByteTape.Source
