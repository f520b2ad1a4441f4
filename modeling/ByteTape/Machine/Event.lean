import ByteTape.Machine.Run

/-!
# Events

What a run reports about itself: where it starts, each opcode it executes if the machine is traced,
and how it ends. Reports do not bear on the run: `map_fst_runLogged?` says that a logged run has the
result of a run without a log.
-/

namespace ByteTape

inductive Event where
  | assembled (operations opcodes : Nat)
  | started (opcodes : Nat) (pointer : Int)
  /-- The opcode at `position` is about to be executed on `cell` as step number `step`. -/
  | stepped (step position : Nat) (op : Opcode) (pointer : Int) (cell : UInt8)
  | halted (steps : Nat) (reason : Halt)
  deriving DecidableEq, Repr

namespace Machine

/-- What the next step reports: the opcode it executes, if the machine is traced. -/
def stepEvent? (machine : Machine) (state : State) : Option Event :=
  if machine.config.trace then
    match machine.move state with
    | .execute op =>
      let tape := state.store.tape
      some (.stepped state.steps state.position op tape.pointer tape.current)
    | _ => none
  else none

def pushStepEvent (machine : Machine) (state : State) (log : Array Event) : Array Event :=
  match machine.stepEvent? state with
  | some event => log.push event
  | none => log

def stepLogged [IndexSpace] (machine : Machine) (state : State) (log : Array Event) :
    State × Array Event :=
  let log := machine.pushStepEvent state log
  (machine.step state, log)

/-- Steps on to a halt as `run?` does. -/
def stepsLogged? [IndexSpace] (machine : Machine) :
    Nat → State → Array Event → Option (State × Array Event)
  | 0, state, log => if state.halt?.isSome then some (state, log) else none
  | fuel + 1, state, log =>
    if state.halt?.isSome then some (state, log)
    else
      let (state, log) := machine.stepLogged state log
      machine.stepsLogged? fuel state log

def haltEvents (state : State) : Array Event :=
  match state.halt? with
  | some reason => #[.halted state.steps reason]
  | none => #[]

/-- A run together with its reports, which follow those in `log`. -/
def runLogged? [IndexSpace] (machine : Machine) (fuel : Nat) (state : State) (log : Array Event) :
    Option (State × Array Event) :=
  let log := log.push (.started machine.program.size state.store.tape.pointer)
  match machine.stepsLogged? fuel state log with
  | some (final, log) => some (final, log ++ haltEvents final)
  | none => none

variable [IndexSpace]

theorem map_fst_stepsLogged? (machine : Machine) (fuel : Nat) (state : State) (log : Array Event) :
    (machine.stepsLogged? fuel state log).map Prod.fst = machine.run? fuel state := by
  induction fuel generalizing state log with
  | zero =>
    unfold stepsLogged? run?
    split <;> rfl
  | succ fuel ih =>
    unfold stepsLogged? run?
    split
    · rfl
    · exact ih _ _

theorem map_fst_runLogged? (machine : Machine) (fuel : Nat) (state : State) (log : Array Event) :
    (machine.runLogged? fuel state log).map Prod.fst = machine.run? fuel state := by
  rw [← map_fst_stepsLogged? machine fuel state
    (log.push (.started machine.program.size state.store.tape.pointer))]
  unfold runLogged?
  dsimp only
  cases machine.stepsLogged? fuel state _ with
  | none => rfl
  | some result => rfl

end Machine

end ByteTape
