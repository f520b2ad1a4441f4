import ByteTape.Minify
import ByteTape.Phrase

/-!
# Operations

The assembly language has the commands `> < + - [ ] , .` on a row of unbounded naturals. Each is done
by a fixed code on the tape. It starts and ends with the pointer on the first flag of a numeral, the
active one, and leaves all triplets well formed. Two operations are not commands: the preamble lays
down the first numeral, and the nonzero test is shared by the commands that look at a value.

The codes are put together from phrases. Comments name the three cells of a digit flag, x and data, and
the three cells of a spacing triplet a, b and c. A prime marks the triplet to the right.
-/

namespace ByteTape

/-- A routine on the numerals of a tape. -/
inductive Operation where
  | preamble
  | nonzeroTest
  | command (op : Opcode)
  deriving DecidableEq, Repr

namespace Operation

/-- Every operation, in the order in which the library is listed. -/
def all : List Operation :=
  [.preamble, .command (.act .right), .command (.act .left), .command (.act .inc),
    .command (.act .dec), .nonzeroTest, .command .loopBegin, .command .loopEnd,
    .command (.act .read), .command (.act .write)]

def name : Operation → String
  | .preamble => "preamble"
  | .nonzeroTest => "nonzero-test"
  | .command (.act .right) => "navigate-right"
  | .command (.act .left) => "navigate-left"
  | .command (.act .inc) => "increment"
  | .command (.act .dec) => "decrement"
  | .command .loopBegin => "loop-open"
  | .command .loopEnd => "loop-close"
  | .command (.act .read) => "input"
  | .command (.act .write) => "output"

def ofName? (text : String) : Option Operation :=
  all.find? fun operation => operation.name == text

/-- The character of a command. -/
def symbol? : Operation → Option Char
  | .command op => some op.toChar
  | .preamble => none
  | .nonzeroTest => none

def ofSymbol? (c : Char) : Option Operation := (Opcode.ofChar? c).map .command

/-- Cells left free before the first numeral. -/
def preambleMargin : Nat := 3

open Phrase

/-- From a flag, or from the triplet before the first one, to the first flag of the chain. -/
def firstFlag : Block := loop (go (-3)) ++ go 3

/-- From a flag to the spacing triplet behind the chain. -/
def chainEnd : Block := loop (go 3)

/-- With the margin, a scan over existing numerals stays at index 0 or above. -/
def preambleBlock : Block := go preambleMargin ++ inc

/-- Goes to the next numeral, or makes one that is zero. -/
def navigateRight : Block :=
  chainEnd ++ go 3 ++ -- the next flag, or free space
  clear ++ inc -- set it either way

/-- Goes to the previous numeral, or makes one that is zero. -/
def navigateLeft : Block :=
  go (-9) ++ -- last digit but one of the previous numeral, or the spacing before its only digit
  firstFlag ++
  clear ++ inc -- set it either way

/-- From a flag: x = data, by way of the flag. -/
def copyData : Block :=
  dec ++ away 2 (drain [-1, -2]) ++ drain [2] ++ inc

/-- From a flag: x = 1 unless x is 0, by way of the flag. -/
def normalize : Block :=
  dec ++ away 1 (loop (away (-1) inc ++ clear)) ++ drain [1] ++ inc

/-- From a flag: x = 1 if the digit is not 0 or x' is 1, and x' = 0. -/
def testDigit : Block :=
  copyData ++
  normalize ++
  away 4 (drain [-3]) ++ -- x = x + x' and x' = 0
  normalize

/-- Sets x of the first digit to 1 if any digit is not 0 and to 0 otherwise, from the last digit
down. -/
def nonzeroBlock : Block :=
  chainEnd ++ go (-3) ++
  loop (testDigit ++ go (-3)) ++ -- while on a digit
  go 3

/-- From a flag or behind all numerals: marks b behind each numeral to the right. -/
def markEnds : Block := loop (chainEnd ++ go 1 ++ inc ++ go 2)

/-- From the flag of a digit before an empty triplet: moves the digit there. -/
def shiftDigit : Block := away 2 (drain [3]) ++ away 3 inc ++ dec

/-- From the last mark to before the first one: every numeral before a mark moves by a triplet. -/
def shiftMarked : Block :=
  loop ( -- from mark to mark, leftward
    dec ++ go (-4) ++
    loop (shiftDigit ++ go (-3)) ++
    go 1)

/-- From b of the spacing behind a chain that has to grow: every digit further right moves by a
triplet, and the spacing becomes a digit 0. -/
def grow : Block :=
  away (-1) dec ++ dec ++ -- a = b = 0
  go 2 ++ markEnds ++ go (-2) ++
  shiftMarked ++
  away (-1) inc -- a = 1

/-- From x of a digit into which a carry goes: adds one, and x = (data = 0). -/
def bump : Block :=
  away 1 inc ++ -- data = data + 1
  dec ++ away (-1) dec ++ -- x = flag = 0
  away 1 (drain [-1, -2]) ++ drain [1] ++ -- flag = data, by way of x
  inc ++ away (-1) (loop (away 1 dec ++ clear) ++ inc) -- x = (data = 0) and flag = 1

/-- From x, or from b of a spacing: b = (a = 0) and a = 1. -/
def findEnd : Block := inc ++ away (-1) (loop (away 1 dec ++ dec) ++ inc)

/-- From x of a digit that wrapped to x of the next one, whose flag is lowered as a sign. A chain that
ends here grows. -/
def carryOn : Block :=
  dec ++ go 3 ++ -- x = 0
  findEnd ++
  loop grow ++ -- if the chain ends here
  away (-1) dec -- flag = 0: the carry goes on

/-- From x: x = 1 if the flag is lowered, and the flag is raised. -/
def raiseFlag : Block := away (-1) (dec ++ loop (away 1 inc ++ clear) ++ inc)

/-- Adds one, from the least digit up, with the carry in x. -/
def increment : Block :=
  go 1 ++ inc ++
  loop (bump ++ loop carryOn ++ raiseFlag) ++ -- while there is a carry
  go (-1) ++ firstFlag

/-- From x of a digit of which one is borrowed: subtracts one. A digit 0 hands the borrow on to x'. -/
def borrowDigit : Block :=
  dec ++ away (-1) copyData ++ -- x = data
  away 3 inc ++ loop (clear ++ away 3 dec) ++ -- x' = (data = 0) and x = 0
  away 1 dec -- data = data - 1

/-- Subtracts one after a nonzero test, from the least digit up, with the borrow in x. Zero stays
zero. -/
def borrow : Block :=
  go 1 ++
  loop (borrowDigit ++ go 3) ++ -- while there is a borrow
  go (-4) ++ firstFlag

/-- Sets all digits to 0 and reads a byte into the first. -/
def input : Block :=
  loop (away 2 clear ++ go 3) ++ go (-3) ++ firstFlag ++ away 2 read

/-- Writes the first digit. -/
def output : Block := away 2 write

/-- The code of an operation before it is minified. The brackets of a loop stand open. -/
def body : Operation → Code
  | .preamble => preambleBlock.code
  | .nonzeroTest => nonzeroBlock.code
  | .command (.act .right) => navigateRight.code
  | .command (.act .left) => navigateLeft.code
  | .command (.act .inc) => increment.code
  | .command (.act .dec) => nonzeroBlock.code ++ borrow.code
  | .command .loopBegin =>
    nonzeroBlock.code ++ (go 1).code ++ [.loopBegin] ++ (dec ++ go (-1)).code
  | .command .loopEnd => nonzeroBlock.code ++ (go 1).code ++ [.loopEnd] ++ (go (-1)).code
  | .command (.act .read) => input.code
  | .command (.act .write) => output.code

def fragment (operation : Operation) : Code := operation.body.minify

end Operation

end ByteTape
