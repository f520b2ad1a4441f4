/-!
# Numerals

An unbounded natural number lies on the tape as a chain of digits in base 256, least digit first. A
digit takes a triplet of cells, `1 0 d`, and the chain is closed by a spacing triplet, `0 0 0`. The
middle cell of a triplet is scratch space for operations at work and 0 between operations.
-/

namespace ByteTape

/-- Three neighbouring cells. -/
structure Triple where
  flag : UInt8
  scratch : UInt8
  data : UInt8
  deriving DecidableEq, Repr

def Triple.toList (cells : Triple) : List UInt8 := [cells.flag, cells.scratch, cells.data]

/-- What a well-formed triple of cells holds. -/
inductive Triplet where
  | digit (data : UInt8)
  | spacing
  deriving DecidableEq, Repr

namespace Triplet

/-- Number of cells of a triplet. -/
def width : Nat := 3

/-- Where the flag stands in a triplet. -/
def flagPlace : Nat := 0

/-- Where the scratch cell stands in a triplet. -/
def scratchPlace : Nat := 1

/-- Where the data stand in a triplet. -/
def dataPlace : Nat := 2

def cells : Triplet → Triple
  | .digit data => ⟨1, 0, data⟩
  | .spacing => ⟨0, 0, 0⟩

def ofCells? (cells : Triple) : Option Triplet :=
  if cells.flag = 1 ∧ cells.scratch = 0 then some (.digit cells.data)
  else if cells = ⟨0, 0, 0⟩ then some .spacing
  else none

theorem ofCells?_eq_some_iff {cells : Triple} {triplet : Triplet} :
    ofCells? cells = some triplet ↔ cells = triplet.cells := by
  rcases cells with ⟨flag, scratch, data⟩
  unfold ofCells?
  constructor
  · intro h
    split at h
    · rename_i hdigit
      cases h
      simp_all [Triplet.cells]
    · split at h
      · rename_i hspacing
        cases h
        exact hspacing
      · cases h
  · intro h
    cases triplet <;> simp_all [Triplet.cells]

end Triplet

/-- A chain of digits whose first triplet stands at `start`. -/
structure Numeral where
  start : Int
  digits : List UInt8
  deriving DecidableEq, Repr

namespace Numeral

def base : Nat := 256

/-- The fewest digits, at least one, that denote `value`. -/
def digitsOf (value : Nat) : List UInt8 :=
  if value < base then [UInt8.ofNat value]
  else UInt8.ofNat (value % base) :: digitsOf (value / base)
termination_by value
decreasing_by
  simp only [base] at *
  omega

def ofNat (start : Int) (value : Nat) : Numeral := ⟨start, digitsOf value⟩

/-- Number of digits. -/
def width (numeral : Numeral) : Nat := numeral.digits.length

/-- Index of the spacing triplet that closes the chain. -/
def stop (numeral : Numeral) : Int := numeral.start + Triplet.width * numeral.width

/-- Where the next numeral starts, one spacing triplet on. -/
def nextStart (numeral : Numeral) : Int := numeral.stop + Triplet.width

def isZero (numeral : Numeral) : Bool := numeral.digits.all (· == 0)

/-- The least digit, which is the only one that a write shows. -/
def lowByte? (numeral : Numeral) : Option UInt8 := numeral.digits.head?

/-- The number denoted, whatever its size. -/
def value (numeral : Numeral) : Nat :=
  numeral.digits.foldr (fun digit rest => digit.toNat + base * rest) 0

/-- Size of a word in bits. -/
def wordSize : Nat := 128

/-- One more digit below `word`, unless the shift leaves the word. -/
def shiftIn (digit : UInt8) (word : Nat) : Option Nat :=
  if word * base < Nat.pow 2 wordSize then some (word * base ||| digit.toNat) else none

/-- The number denoted, if it fits in a word. It is built digit by digit from the top, so leading
zeros cost nothing. -/
def word? (numeral : Numeral) : Option Nat :=
  numeral.digits.foldr (fun digit rest => rest.bind (shiftIn digit)) (some 0)

/-- The chain and its closing spacing. -/
def triplets (numeral : Numeral) : List Triplet :=
  numeral.digits.map .digit ++ [.spacing]

def cells (numeral : Numeral) : List UInt8 :=
  numeral.triplets.flatMap fun triplet => triplet.cells.toList

/-- The numerals of `values` side by side, the first at `start`. -/
def row (start : Int) : List Nat → List Numeral
  | [] => []
  | value :: rest =>
    let numeral := ofNat start value
    numeral :: row numeral.nextStart rest

end Numeral

end ByteTape
