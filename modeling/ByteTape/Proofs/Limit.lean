import ByteTape.Proofs.Representation
import ByteTape.Proofs.Source
import ByteTape.Proofs.Stages
import ByteTape.Proofs.StructuredRun

/-!
# Runs with a step limit

A machine with a step limit goes the way of one without until the limit stops it, be it in the
middle of a command, where the tape is in no order. What it has written by then is part of what the
source writes, since output is never taken back and the machine without a limit always comes to the
end of a command again. In the same way everything the source writes is written, if the limit is
high enough.
-/

namespace ByteTape

namespace Machine

/-- A machine that may execute `limit` opcodes. -/
def limited (program : Program) (trace : Bool) (limit : Nat) : Machine :=
  ⟨program, ⟨some limit, trace⟩⟩

variable {machine : Machine} {program : Program} {trace : Bool} {limit : Nat}

/-! ### Until the limit -/

theorem steps_execute (program : Program) (op : Opcode) (s : State) :
    (execute program op s).steps = s.steps + 1 ∧ (execute program op s).halt? = s.halt? := by
  cases op with
  | act action => exact ⟨rfl, rfl⟩
  | loopBegin =>
    simp only [execute]
    split <;> exact ⟨rfl, rfl⟩
  | loopEnd => exact ⟨rfl, rfl⟩

/-- As long as a machine has not halted, every step executes an opcode. -/
theorem steps_iterate {s : State} {count : Nat} (h : (machine.step^[count] s).halt? = none) :
    (machine.step^[count] s).steps = s.steps + count := by
  induction count with
  | zero => rfl
  | succ count ih =>
    rw [Function.iterate_succ_apply'] at h ⊢
    obtain ⟨hhalt, hstep⟩ | ⟨reason, hstep⟩ | ⟨op, -, hstep⟩ :=
      machine.step_cases (machine.step^[count] s)
    · rw [hstep] at h
      rw [h] at hhalt
      cases hhalt
    · rw [hstep] at h
      cases h
    · obtain ⟨hsteps, hhalt⟩ := steps_execute machine.program op (machine.step^[count] s)
      rw [hstep, hhalt] at h
      rw [hstep, hsteps, ih h, Nat.add_assoc]

theorem step_limited {s : State} (h : s.halt? = none → s.steps < limit) :
    (limited program trace limit).step s = (unlimited program trace).step s := by
  cases hhalt : s.halt? with
  | some reason =>
    have hsome : s.halt?.isSome := by rw [hhalt]; rfl
    rw [step_of_halted hsome, step_of_halted hsome]
  | none =>
    have hroom : (limited program trace limit).config.spent s.steps = false :=
      decide_eq_false (Nat.not_le.2 (h hhalt))
    cases hop : program.code[s.position]? with
    | none =>
      have hend := List.getElem?_eq_none_iff.1 hop
      rw [step_of_end hhalt hend, step_of_end hhalt hend]
    | some op => rw [step_of_opcode hhalt hop hroom, step_of_opcode hhalt hop rfl]; rfl

theorem iterate_step_limited (s : State) {count : Nat} (hle : s.steps + count ≤ limit) :
    (limited program trace limit).step^[count] s = (unlimited program trace).step^[count] s := by
  induction count with
  | zero => rfl
  | succ count ih =>
    rw [Function.iterate_succ_apply', Function.iterate_succ_apply', ih (by omega)]
    refine step_limited fun hhalt => ?_
    rw [steps_iterate hhalt]
    omega

/-- With no steps left, a machine is halted where it stands. -/
theorem step_of_no_room {s : State} (h : s.halt? = none → machine.config.spent s.steps = true) :
    (machine.step s).halt?.isSome ∧ (machine.step s).store = s.store := by
  cases hhalt : s.halt? with
  | some reason =>
    have hsome : s.halt?.isSome := by rw [hhalt]; rfl
    rw [step_of_halted hsome]
    exact ⟨hsome, rfl⟩
  | none =>
    cases hop : machine.program.code[s.position]? with
    | none =>
      rw [step_of_end hhalt (List.getElem?_eq_none_iff.1 hop)]
      exact ⟨rfl, rfl⟩
    | some op =>
      rw [step_of_spent hhalt hop (h hhalt)]
      exact ⟨rfl, rfl⟩

/-- A limited run always halts, with the store that a run without a limit has at that time. -/
theorem exists_halts_limited (program : Program) (trace : Bool) (limit : Nat) (tape : Tape)
    (input : List UInt8) :
    ∃ final, (limited program trace limit).Halts (.start tape input) final ∧
      final.store = ((unlimited program trace).step^[limit] (.start tape input)).store := by
  have hsteps : (State.start tape input).steps + limit = limit := Nat.zero_add limit
  rw [← iterate_step_limited _ (Nat.le_of_eq hsteps)]
  have hspent : ((limited program trace limit).step^[limit] (.start tape input)).halt? = none →
      (limited program trace limit).config.spent
        ((limited program trace limit).step^[limit] (.start tape input)).steps = true := by
    intro hhalt
    rw [steps_iterate hhalt, hsteps]
    exact decide_eq_true (Nat.le_refl limit)
  obtain ⟨hhalt, hstore⟩ := step_of_no_room hspent
  exact ⟨_, halts_iff.2 ⟨⟨limit + 1, Function.iterate_succ_apply' _ _ _⟩, hhalt⟩, hstore⟩

end Machine

/-! ### Output is never taken back -/

theorem Console.read_output (console : Console) : console.read.2.output = console.output := by
  obtain ⟨_ | ⟨byte, rest⟩, output⟩ := console <;> rfl

theorem Console.output_prefix_write (console : Console) (byte : UInt8) :
    console.output.toList <+: (console.write byte).output.toList := by
  change _ <+: (console.output.push byte).toList
  rw [Array.toList_push]
  exact List.prefix_append _ _

theorem Store.output_prefix_perform (store : Store) (action : Action) :
    store.console.output.toList <+: (store.perform action).console.output.toList := by
  cases action with
  | inc | dec | left | right => exact List.prefix_refl _
  | read =>
    change _ <+: store.console.read.2.output.toList
    rw [Console.read_output]
  | write => exact store.console.output_prefix_write _

theorem Machine.output_prefix_iterate (machine : Machine) (s : State) {time time' : Nat}
    (hle : time ≤ time') :
    (machine.step^[time] s).store.console.output.toList <+:
      (machine.step^[time'] s).store.console.output.toList := by
  induction time', hle using Nat.le_induction with
  | base => exact List.prefix_refl _
  | succ time' hle ih =>
    refine ih.trans ?_
    rw [Function.iterate_succ_apply']
    obtain hstore | ⟨action, -, hstore⟩ := machine.store_step (machine.step^[time'] s)
    · rw [hstore]
    · rw [hstore]
      exact Store.output_prefix_perform _ action

namespace Counters

/-- What a block has written after `count` steps. -/
def written (block : Block) (input : List UInt8) (count : Nat) : List UInt8 :=
  (stage block input count).2.output

theorem output_prefix_perform (t : Counters) (action : Action) :
    t.output <+: (t.perform action).output := by
  cases action with
  | inc | dec | left | right | read => exact List.prefix_refl _
  | write => exact List.prefix_append _ _

theorem output_prefix_advance_one (block : Block) (t : Counters) :
    t.output <+: (Block.advance device 1 (block, t)).2.output := by
  cases block with
  | done => exact List.prefix_refl _
  | act action rest => exact output_prefix_perform t action
  | loop body rest =>
    rw [Block.advance, Block.next?_loop]
    cases device.nonzero t <;> exact List.prefix_refl _

theorem written_prefix_written (block : Block) (input : List UInt8) {count count' : Nat}
    (hle : count ≤ count') : written block input count <+: written block input count' := by
  induction count', hle using Nat.le_induction with
  | base => exact List.prefix_refl _
  | succ count' hle ih =>
    refine ih.trans ?_
    rw [written, written, stage_succ]
    exact output_prefix_advance_one _ _

/-- The bytes are the beginning of what a block writes, or all of it, whether or not it ends. -/
def Writes (block : Block) (input bytes : List UInt8) : Prop :=
  ∃ count, bytes <+: written block input count

variable {block : Block} {input bytes bytes' : List UInt8}

theorem Writes.prefix_or_prefix (h : Writes block input bytes) (h' : Writes block input bytes') :
    bytes <+: bytes' ∨ bytes' <+: bytes := by
  obtain ⟨count, hbytes⟩ := h
  obtain ⟨count', hbytes'⟩ := h'
  have hle := written_prefix_written block input (Nat.le_max_left count count')
  have hle' := written_prefix_written block input (Nat.le_max_right count count')
  exact List.prefix_or_prefix_of_prefix (hbytes.trans hle) (hbytes'.trans hle')

theorem writes_iff_of_evaluates {cost : Nat} {t : Counters}
    (h : block.Evaluates device (.start input) cost t) :
    Writes block input bytes ↔ bytes <+: t.output := by
  obtain ⟨count, hcount⟩ := exists_evaluates_iff.1 ⟨cost, h⟩
  have hwritten : written block input count = t.output := by rw [written, hcount]
  rw [← hwritten]
  constructor
  · rintro ⟨more, hbytes⟩
    rcases Nat.le_total more count with hle | hge
    · exact hbytes.trans (written_prefix_written block input hle)
    · rwa [written, stage, Block.advance_eq_of_le (congrArg Prod.fst hcount) hge] at hbytes
  · intro hbytes
    exact ⟨count, hbytes⟩

end Counters

theorem Store.Shows.output_eq {store : Store} {block : Block} {input : List UInt8} {count : Nat}
    (h : store.Shows (Chains.stage block input count).2) :
    store.console.output.toList = Counters.written block input count := by
  have hconsole : store.console = (Chains.stage block input count).2.console :=
    congrArg Band.console h.2
  rw [hconsole, (represents_stage block input count).2.console, Counters.written]

/-! ### Limited runs of assembled programs -/

section Assembled

variable {program : Program} {trace : Bool} {block : Block} {input : List UInt8}
  (hcode : program.code = Operation.compile (block.code.map .command))

include hcode

theorem writes_iterate (time : Nat) :
    Counters.Writes block input ((Machine.unlimited program trace).step^[time]
      (.start .empty input)).store.console.output.toList := by
  obtain ⟨time', htime, count, -, hshows⟩ := Machine.exists_shows hcode rfl time 0
  exact ⟨count, hshows.output_eq ▸ Machine.output_prefix_iterate _ _ htime⟩

theorem exists_time_of_writes {bytes : List UInt8} (h : Counters.Writes block input bytes) :
    ∃ enough, ∀ time ≥ enough, bytes <+: ((Machine.unlimited program trace).step^[time]
      (.start .empty input)).store.console.output.toList := by
  obtain ⟨count, hbytes⟩ := h
  obtain ⟨enough, -, count', hcount, hshows⟩ := Machine.exists_shows hcode rfl 0 count
  refine ⟨enough, fun time htime => ?_⟩
  calc bytes
    _ <+: Counters.written block input count := hbytes
    _ <+: Counters.written block input count' := Counters.written_prefix_written block input hcount
    _ = ((Machine.unlimited program trace).step^[enough]
        (.start .empty input)).store.console.output.toList := hshows.output_eq.symm
    _ <+: _ := Machine.output_prefix_iterate _ _ htime

end Assembled

/-- What a source writes is one sequence, which is the final output if the source ends. Runs with a
step limit write beginnings of it, and every beginning of it from some limit on. -/
theorem limited_runs_write_source_output :
    (∀ (block : Block) (input bytes bytes' : List UInt8), Counters.Writes block input bytes →
      Counters.Writes block input bytes' → bytes <+: bytes' ∨ bytes' <+: bytes) ∧
    (∀ (block : Block) (input bytes : List UInt8) (cost : Nat) (t : Counters),
      block.Evaluates Counters.device (.start input) cost t →
        (Counters.Writes block input bytes ↔ bytes <+: t.output)) ∧
    ∀ text assembly, assemble text = .ok assembly →
      ∃ block : Block, block.code = Code.ofString text ∧ ∀ (trace : Bool) (input : List UInt8),
        (∀ limit, ∃ final,
          (Machine.limited assembly.program trace limit).Halts (.start .empty input) final ∧
            Counters.Writes block input final.store.console.output.toList) ∧
        ∀ bytes, Counters.Writes block input bytes →
          ∃ enough, ∀ limit ≥ enough, ∃ final,
            (Machine.limited assembly.program trace limit).Halts (.start .empty input) final ∧
              bytes <+: final.store.console.output.toList := by
  refine ⟨fun _ _ _ _ h h' => h.prefix_or_prefix h',
    fun _ _ _ _ _ h => Counters.writes_iff_of_evaluates h, fun text assembly hassembly => ?_⟩
  obtain ⟨⟨block, hblock⟩, hoperations, hcode⟩ := assemble_eq_ok hassembly
  rw [hoperations, ← hblock] at hcode
  refine ⟨block, hblock, fun trace input => ⟨fun limit => ?_, fun bytes hbytes => ?_⟩⟩
  · obtain ⟨final, hhalts, hstore⟩ :=
      Machine.exists_halts_limited assembly.program trace limit .empty input
    refine ⟨final, hhalts, ?_⟩
    rw [hstore]
    exact writes_iterate hcode limit
  · obtain ⟨enough, henough⟩ := exists_time_of_writes hcode hbytes
    refine ⟨enough, fun limit hlimit => ?_⟩
    obtain ⟨final, hhalts, hstore⟩ :=
      Machine.exists_halts_limited assembly.program trace limit .empty input
    refine ⟨final, hhalts, ?_⟩
    rw [hstore]
    exact henough limit hlimit

end ByteTape
