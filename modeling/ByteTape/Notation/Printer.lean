import ByteTape.Tape
import ByteTape.Numeral

/-!
# Printing the tape notation

Every cell of a tape's extent is printed, with the pointer's cell in brackets, a bar before index 0
where cells stand left of it, and a wider blank before each triplet.
-/

namespace ByteTape.Notation

def printCell (tape : Tape) (low index : Int) : List Char :=
  let digits := Nat.toDigits 10 (tape.get index).toNat
  let value := if index = tape.pointer then '[' :: digits ++ [']'] else digits
  let value := if index = 0 ∧ low < 0 then '|' :: ' ' :: value else value
  if index % Triplet.width = 0 then ' ' :: ' ' :: value else value

def print (tape : Tape) : String :=
  let extent := tape.extent
  String.ofList ([' '].intercalate (extent.indices.map (printCell tape extent.low)))

end ByteTape.Notation
