import ByteTape.Opcode

/-!
# Code

A code is a sequence of opcodes, balanced or not. It is written as text, one character an opcode.
Text read as code may hold anything else beside the opcodes: a comment runs from the comment marker
to the end of its line, and every other character is skipped.
-/

namespace ByteTape

abbrev Code := List Opcode

namespace Code

def commentMarker : Char := '#'

/-- The opcodes of one line, up to its comment. -/
def ofLine (line : List Char) : Code :=
  (line.takeWhile (· ≠ commentMarker)).filterMap Opcode.ofChar?

/-- The opcodes of a text, line by line; only a line feed ends a line. -/
def ofChars (text : List Char) : Code :=
  (text.splitOn '\n').flatMap ofLine

def ofString (text : String) : Code :=
  ofChars text.toList

def toString (code : Code) : String :=
  String.ofList (code.map Opcode.toChar)

/-- How many loops the code opens beyond those it closes. -/
def balance (code : Code) : Int :=
  (code.count .loopBegin : Int) - code.count .loopEnd

end Code

end ByteTape
