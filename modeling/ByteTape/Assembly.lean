import ByteTape.Machine.Event
import ByteTape.Operation
import ByteTape.Program
import ByteTape.Source

/-!
# Assembly

A source text is assembled by substitution: the code of the preamble, then the code of each command.
Loops have to nest in the source.
-/

namespace ByteTape

inductive AssemblyFault where
  /-- A closing bracket with nothing open before it. -/
  | unmatched (place : Source.Place)
  /-- An opening bracket that nothing closes. -/
  | unclosed (place : Source.Place)
  /-- Brackets of the assembled code that do not match. -/
  | program (fault : BracketFault)
  deriving DecidableEq, Repr

def AssemblyFault.message : AssemblyFault → String
  | .unmatched ⟨line, column⟩ =>
    s!"Syntax error at line {line}, column {column}: `]` without a matching `[`"
  | .unclosed ⟨line, column⟩ =>
    s!"Syntax error at line {line}, column {column}: `[` is never closed"
  | .program fault => "Program error: " ++ fault.message

namespace Source

/-- Checks that brackets nest, with the offsets of those still open in `pending`, innermost first. A
fault carries the offset of the bracket to blame. -/
def nest : List Token → List Nat → Except BracketFault Unit
  | [], [] => .ok ()
  | [], start :: _ => .error (.unclosed start)
  | ⟨.act _, _⟩ :: rest, pending => nest rest pending
  | ⟨.loopBegin, start⟩ :: rest, pending => nest rest (start :: pending)
  | ⟨.loopEnd, start⟩ :: _, [] => .error (.unmatched start)
  | ⟨.loopEnd, _⟩ :: rest, _ :: pending => nest rest pending

/-- The operations of a source text. -/
def operations (text : String) : Except AssemblyFault (List Operation) :=
  let tokens := scan text
  match nest tokens [] with
  | .ok () => .ok (tokens.map fun token => .command token.op)
  | .error (.unmatched offset) => .error (.unmatched (.ofOffset text offset))
  | .error (.unclosed offset) => .error (.unclosed (.ofOffset text offset))

end Source

/-- The code of the preamble and then of each operation, whether or not loops nest. -/
def Operation.compile (operations : List Operation) : Code :=
  Operation.preamble.fragment ++ operations.flatMap Operation.fragment

/-- A program and the operations it was made of. -/
structure Assembly where
  operations : List Operation
  program : Program

namespace Assembly

def event (assembly : Assembly) : Event :=
  .assembled assembly.operations.length assembly.program.size

end Assembly

def assemble (text : String) : Except AssemblyFault Assembly := do
  let operations ← Source.operations text
  match Program.ofCode (Operation.compile operations) with
  | .ok program => .ok ⟨operations, program⟩
  | .error fault => .error (.program fault)

end ByteTape
