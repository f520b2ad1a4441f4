import ByteTape.Machine.Run
import ByteTape.Notation.Reader

/-!
# Loading a machine from text

A program and a tape, both given as text, make a machine without a step limit that is ready to run.
-/

namespace ByteTape

/-- Why texts make no machine. The program is looked at before the tape. -/
inductive LoadFault where
  | program (fault : BracketFault)
  | tape (fault : NotationFault)
  deriving DecidableEq, Repr

def LoadFault.message : LoadFault → String
  | .program fault => "Spec error: " ++ fault.message
  | .tape fault => "Notation error: " ++ fault.message

def Machine.load (source tape : String) (input : List UInt8) :
    Except LoadFault (Machine × Machine.State) := do
  let program ← (Program.ofString source).mapError .program
  let tape ← (Notation.read tape).mapError .tape
  return ({ program }, .start tape input)

end ByteTape
