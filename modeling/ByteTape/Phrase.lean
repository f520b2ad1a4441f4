import ByteTape.Block

/-!
# Phrases

Blocks that recur in the code of operations. The pointer is often sent to a cell and back; the moves
that cancel by this are taken out later, when the code is minified.
-/

namespace ByteTape.Phrase

def single (action : Action) : Block := .act action .done

def inc : Block := single .inc

def dec : Block := single .dec

def read : Block := single .read

def write : Block := single .write

def times : Nat → Block → Block
  | 0, _ => .done
  | n + 1, block => block ++ times n block

/-- Moves the pointer by `distance`, to the right if it is positive. -/
def go : Int → Block
  | .ofNat n => times n (single .right)
  | .negSucc n => times (n + 1) (single .left)

/-- Repeats `body` while the cell under the pointer is not 0. -/
def loop (body : Block) : Block := .loop body .done

/-- Does `block` at the cell that is `distance` away. It has to leave the pointer where it was. -/
def away (distance : Int) (block : Block) : Block := go distance ++ block ++ go (-distance)

/-- Sets the cell to 0. -/
def clear : Block := loop dec

/-- Sets the cell to 0 and adds what it held to each of the cells at these distances. -/
def drain (distances : List Int) : Block :=
  loop (distances.foldl (fun block distance => block ++ away distance inc) dec)

end ByteTape.Phrase
