/-!
# The console

Input is given as a whole before a run and read byte by byte; past its end every read gives 0.
Output is collected.
-/

namespace ByteTape

structure Console where
  input : List UInt8 := []
  output : Array UInt8 := #[]
  deriving DecidableEq, Repr, Inhabited

namespace Console

/-- The next byte of input, and the console without it. -/
def read : Console → UInt8 × Console
  | ⟨[], output⟩ => (0, ⟨[], output⟩)
  | ⟨byte :: rest, output⟩ => (byte, ⟨rest, output⟩)

def write : Console → UInt8 → Console
  | ⟨input, output⟩, byte => ⟨input, output.push byte⟩

/-- The output collected, and the console without it. -/
def takeOutput (console : Console) : Array UInt8 × Console :=
  (console.output, { console with output := #[] })

end Console

end ByteTape
