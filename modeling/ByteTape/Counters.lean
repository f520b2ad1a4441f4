import ByteTape.Block
import ByteTape.Tape

/-!
# Counters

The meaning of the assembly language: its commands act on a row of natural numbers, infinite to both
sides and all 0 at first, with a cursor. Numbers have no upper bound and stop at 0 from above. A
read takes the first byte of the input, or 0 if there is none left, and a write adds a number modulo
256 to the end of the output.
-/

namespace ByteTape

structure Counters where
  value : Int → Nat
  cursor : Int
  /-- The bytes that are left to read. -/
  input : List UInt8
  /-- The bytes written, first to last. -/
  output : List UInt8
  /-- The positions the cursor has been at. -/
  visited : Window

namespace Counters

def start (input : List UInt8) : Counters := ⟨fun _ => 0, 0, input, [], ⟨0, 0⟩⟩

/-- The number under the cursor. -/
def current (counters : Counters) : Nat := counters.value counters.cursor

def setCurrent (counters : Counters) (n : Nat) : Counters :=
  { counters with
    value := fun position => if position = counters.cursor then n else counters.value position }

def moveTo (counters : Counters) (position : Int) : Counters :=
  { counters with
    cursor := position
    visited := counters.visited.hull ⟨position, position⟩ }

def perform : Action → Counters → Counters
  | .inc, counters => counters.setCurrent (counters.current + 1)
  | .dec, counters => counters.setCurrent (counters.current - 1)
  | .left, counters => counters.moveTo (counters.cursor - 1)
  | .right, counters => counters.moveTo (counters.cursor + 1)
  | .read, counters =>
    { counters.setCurrent (counters.input.headD 0).toNat with input := counters.input.tail }
  | .write, counters =>
    { counters with output := counters.output ++ [UInt8.ofNat counters.current] }

def device : Device Counters := ⟨perform, fun counters => counters.current != 0⟩

/-- The numbers at the positions the cursor has been at, from left to right. -/
def values (counters : Counters) : List Nat := counters.visited.indices.map counters.value

end Counters

end ByteTape
