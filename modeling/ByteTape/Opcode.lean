/-!
# Opcodes

The alphabet of the machine: six actions on the cell under the pointer or on the pointer itself, and
the two brackets of a loop. The same eight characters are the commands of the assembly language,
where a cell holds an unbounded natural number instead of a byte.
-/

namespace ByteTape

/-- What one instruction does to the store. -/
inductive Action where
  | inc
  | dec
  | left
  | right
  | read
  | write
  deriving DecidableEq, Repr, Inhabited

/-- One instruction: an action, or a bracket of a loop. -/
inductive Opcode where
  | act (action : Action)
  | loopBegin
  | loopEnd
  deriving DecidableEq, Repr, Inhabited

/-- The action that undoes this one on every store; reading and writing cannot be undone. -/
def Action.inverse? : Action → Option Action
  | .inc => some .dec
  | .dec => some .inc
  | .left => some .right
  | .right => some .left
  | .read => none
  | .write => none

namespace Opcode

/-- Every opcode, in the order in which the alphabet is listed. -/
def all : List Opcode :=
  [.act .inc, .act .dec, .act .left, .act .right, .loopBegin, .loopEnd, .act .read, .act .write]

def toChar : Opcode → Char
  | .act .inc => '+'
  | .act .dec => '-'
  | .act .left => '<'
  | .act .right => '>'
  | .loopBegin => '['
  | .loopEnd => ']'
  | .act .read => ','
  | .act .write => '.'

def ofChar? : Char → Option Opcode
  | '+' => some (.act .inc)
  | '-' => some (.act .dec)
  | '<' => some (.act .left)
  | '>' => some (.act .right)
  | '[' => some .loopBegin
  | ']' => some .loopEnd
  | ',' => some (.act .read)
  | '.' => some (.act .write)
  | _ => none

/-- The name under which an opcode is stored in data files. -/
def name : Opcode → String
  | .act .inc => "Increment"
  | .act .dec => "Decrement"
  | .act .left => "MoveLeft"
  | .act .right => "MoveRight"
  | .loopBegin => "LoopOpen"
  | .loopEnd => "LoopClose"
  | .act .read => "Input"
  | .act .write => "Output"

/-- Names are case sensitive. -/
def ofName? (text : String) : Option Opcode :=
  all.find? fun op => op.name == text

def isBracket : Opcode → Bool
  | .act _ => false
  | .loopBegin => true
  | .loopEnd => true

def inverse? : Opcode → Option Opcode
  | .act action => action.inverse?.map .act
  | .loopBegin => none
  | .loopEnd => none

@[simp]
theorem ofChar?_toChar (op : Opcode) : ofChar? op.toChar = some op := by
  cases op with
  | act action => cases action <;> rfl
  | loopBegin => rfl
  | loopEnd => rfl

theorem ofChar?_eq_some_iff {c : Char} {op : Opcode} : ofChar? c = some op ↔ c = op.toChar := by
  constructor
  · intro h
    unfold ofChar? at h
    split at h <;> cases h <;> rfl
  · rintro rfl
    exact ofChar?_toChar op

theorem inverse?_eq_some_comm {a b : Opcode} : a.inverse? = some b ↔ b.inverse? = some a := by
  rcases a with (_ | _ | _ | _ | _ | _) | _ | _ <;> rcases b with (_ | _ | _ | _ | _ | _) | _ | _ <;>
    decide

end Opcode

end ByteTape
