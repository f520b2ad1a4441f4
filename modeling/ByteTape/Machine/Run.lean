import ByteTape.Program
import ByteTape.Machine.Store

/-!
# Running a program

A machine steps through its program one opcode at a time until the program ends or the step limit is
reached. A closing bracket goes back to its opening bracket, which tests the cell again; each bracket
passed counts as a step. `run?` takes the number of steps it may try, and a run that needs more has no
result: a program runs for ever exactly when `run?` has none for any number.
-/

namespace ByteTape

inductive Halt where
  | completed
  | stepLimit
  deriving DecidableEq, Repr

def Halt.name : Halt → String
  | .completed => "Completed"
  | .stepLimit => "StepLimit"

structure Config where
  /-- The number of opcodes that may be executed. -/
  maxSteps : Option Nat := none
  /-- Whether each executed opcode is reported. -/
  trace : Bool := false
  deriving DecidableEq, Repr

/-- Whether `steps` steps leave no room for another. -/
def Config.spent (config : Config) (steps : Nat) : Bool :=
  match config.maxSteps with
  | some limit => decide (limit ≤ steps)
  | none => false

structure Machine where
  program : Program
  config : Config := {}

namespace Machine

structure State where
  store : Store
  /-- Position of the opcode to be executed next. -/
  position : Nat := 0
  /-- Number of opcodes executed. -/
  steps : Nat := 0
  halt? : Option Halt := none

def State.start (tape : Tape) (input : List UInt8) : State := { store := .ofTape tape input }

def State.halt : State → Halt → State
  | ⟨store, position, steps, _⟩, reason => ⟨store, position, steps, some reason⟩

/-- Executes `op`, which stands at the state's position. -/
def execute [IndexSpace] (program : Program) (op : Opcode) : State → State
  | ⟨store, position, steps, halt?⟩ =>
    match op with
    | .act action => ⟨store.perform action, position + 1, steps + 1, halt?⟩
    | .loopBegin =>
      if store.nonzero then ⟨store, position + 1, steps + 1, halt?⟩
      else ⟨store, program.partner position + 1, steps + 1, halt?⟩
    | .loopEnd => ⟨store, program.partner position, steps + 1, halt?⟩

/-- What a step will do. -/
inductive Move where
  | rest
  | halt (reason : Halt)
  | execute (op : Opcode)

/-- At the end of the program a machine completes, whether or not steps are left. -/
def move (machine : Machine) (state : State) : Move :=
  match state.halt? with
  | some _ => .rest
  | none =>
    match machine.program.opcode? state.position with
    | none => .halt .completed
    | some op => if machine.config.spent state.steps then .halt .stepLimit else .execute op

def step [IndexSpace] (machine : Machine) (state : State) : State :=
  match machine.move state with
  | .rest => state
  | .halt reason => state.halt reason
  | .execute op => execute machine.program op state

/-- The halted state that `state` runs into within `fuel` steps. -/
def run? [IndexSpace] (machine : Machine) : Nat → State → Option State
  | 0, state => if state.halt?.isSome then some state else none
  | fuel + 1, state =>
    if state.halt?.isSome then some state else machine.run? fuel (machine.step state)

end Machine

end ByteTape
