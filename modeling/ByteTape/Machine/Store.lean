import ByteTape.Opcode
import ByteTape.Tape
import ByteTape.Machine.Console

/-!
# The store

What actions act on: the tape, the console, and a mark of how far left the pointer has been. The
mark is set where a run starts and lowered by moves to the left only.
-/

namespace ByteTape

structure Store where
  tape : Tape
  console : Console
  /-- The least of the indices the pointer started at and was moved left to. -/
  lowest : Int

namespace Store

def ofTape (tape : Tape) (input : List UInt8) : Store :=
  ⟨tape, { input }, tape.pointer⟩

/-- Takes note of an index the pointer is at. -/
def observe (store : Store) (index : Int) : Store :=
  { store with lowest := min store.lowest index }

def perform [IndexSpace] : Action → Store → Store
  | .inc, ⟨tape, console, lowest⟩ => ⟨tape.increment, console, lowest⟩
  | .dec, ⟨tape, console, lowest⟩ => ⟨tape.decrement, console, lowest⟩
  | .left, ⟨tape, console, lowest⟩ =>
    let moved := tape.moveLeft
    (⟨moved, console, lowest⟩ : Store).observe moved.pointer
  | .right, ⟨tape, console, lowest⟩ => ⟨tape.moveRight, console, lowest⟩
  | .read, ⟨tape, console, lowest⟩ =>
    let (byte, console) := console.read
    ⟨tape.setCurrent byte, console, lowest⟩
  | .write, ⟨tape, console, lowest⟩ => ⟨tape, console.write tape.current, lowest⟩

/-- What decides whether a loop goes on. -/
def nonzero (store : Store) : Bool := store.tape.current != 0

end Store

end ByteTape
