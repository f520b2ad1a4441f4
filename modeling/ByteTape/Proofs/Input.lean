import Mathlib.Data.Nat.Count
import ByteTape.Proofs.Lockstep

/-!
# Input

Each execution of `,` takes one byte from the front of the input, or takes 0 where none is left. So
after any number of steps the input that is left is the given one without as many bytes as `,` was
executed (`input_iterate`), and a run depends on no byte behind those.
-/

namespace ByteTape

theorem Console.read_eq (console : Console) :
    console.read = (console.input.getD 0 0, { console with input := console.input.drop 1 }) := by
  obtain ⟨input, output⟩ := console
  cases input with
  | nil => rfl
  | cons byte rest => rfl

namespace Store

/-- Stores that differ in nothing but the input that is left. -/
structure SameButInput (s t : Store) : Prop where
  tape : s.tape = t.tape
  output : s.console.output = t.console.output
  lowest : s.lowest = t.lowest

theorem SameButInput.symm {s t : Store} (h : s.SameButInput t) : t.SameButInput s :=
  ⟨h.tape.symm, h.output.symm, h.lowest.symm⟩

theorem SameButInput.nonzero {s t : Store} (h : s.SameButInput t) : s.nonzero = t.nonzero := by
  rw [Store.nonzero, Store.nonzero, h.tape]

theorem SameButInput.perform {s t : Store} (h : s.SameButInput t) {action : Action}
    (hread : action = .read → s.console.input.getD 0 0 = t.console.input.getD 0 0) :
    (s.perform action).SameButInput (t.perform action) := by
  obtain ⟨tape, ⟨input, output⟩, lowest⟩ := s
  obtain ⟨tape', ⟨input', output'⟩, lowest'⟩ := t
  obtain ⟨rfl, rfl, rfl⟩ := h
  cases action with
  | read =>
    have hbyte := hread rfl
    simp only at hbyte
    simp only [Store.perform, Console.read_eq, hbyte]
    exact ⟨rfl, rfl, rfl⟩
  | inc => exact ⟨rfl, rfl, rfl⟩
  | dec => exact ⟨rfl, rfl, rfl⟩
  | left => exact ⟨rfl, rfl, rfl⟩
  | right => exact ⟨rfl, rfl, rfl⟩
  | write => exact ⟨rfl, rfl, rfl⟩

theorem input_perform_read (s : Store) :
    (s.perform .read).console.input = s.console.input.drop 1 := by
  rw [perform, Console.read_eq]

theorem input_perform_of_ne (s : Store) {action : Action} (h : action ≠ .read) :
    (s.perform action).console.input = s.console.input := by
  cases action with
  | read => exact absurd rfl h
  | inc => rfl
  | dec => rfl
  | left => rfl
  | right => rfl
  | write => rfl

end Store

namespace Machine

/-- The next step executes `op`. -/
def ExecutesOp (machine : Machine) (op : Opcode) (s : State) : Prop :=
  s.halt? = none ∧ machine.program.opcode? s.position = some op ∧
    machine.config.spent s.steps = false

instance (machine : Machine) (op : Opcode) (s : State) : Decidable (machine.ExecutesOp op s) :=
  inferInstanceAs (Decidable (_ ∧ _ ∧ _))

/-- How many times `op` was executed in the first `count` steps from `s`. -/
def executions (machine : Machine) (op : Opcode) (s : State) (count : Nat) : Nat :=
  Nat.count (fun i => machine.ExecutesOp op (machine.step^[i] s)) count

variable {machine : Machine} {op : Opcode} {s t : State}

theorem executesOp_iff : machine.ExecutesOp op s ↔ machine.move s = .execute op := by
  unfold ExecutesOp move
  cases s.halt? with
  | some reason => simp
  | none =>
    cases machine.program.opcode? s.position with
    | none => simp
    | some other => cases machine.config.spent s.steps <;> simp

theorem executions_eq_zero (h : op ∉ machine.program.code) (s : State) (count : Nat) :
    machine.executions op s count = 0 := by
  rw [executions, Nat.count_iff_forall_not]
  intro i _ hexecutes
  apply h
  have hop := hexecutes.2.1
  rw [Program.opcode?_eq] at hop
  exact List.mem_of_getElem? hop

theorem input_step (machine : Machine) (s : State) :
    (machine.step s).store.console.input =
      s.store.console.input.drop (if machine.ExecutesOp (.act .read) s then 1 else 0) := by
  by_cases hread : machine.ExecutesOp (.act .read) s
  · rw [if_pos hread, Machine.step, executesOp_iff.1 hread]
    exact s.store.input_perform_read
  · rw [if_neg hread, List.drop_zero, Machine.step]
    cases hmove : machine.move s with
    | rest => rfl
    | halt reason => rfl
    | execute op =>
      cases op with
      | act action =>
        apply s.store.input_perform_of_ne
        rintro rfl
        exact hread (executesOp_iff.2 hmove)
      | loopBegin =>
        simp only [execute]
        split <;> rfl
      | loopEnd => rfl

theorem input_iterate (machine : Machine) (s : State) (count : Nat) :
    (machine.step^[count] s).store.console.input =
      s.store.console.input.drop (machine.executions (.act .read) s count) := by
  induction count with
  | zero => rfl
  | succ count ih =>
    rw [Function.iterate_succ_apply', input_step, ih, List.drop_drop, executions, executions,
      Nat.count_succ]

/-- Runs whose inputs have the same bytes wherever the first run reads them stay together, and read
as often. -/
theorem matches_iterate_of_input (h : s.Matches Store.SameButInput t) {count : Nat}
    (hinput : ∀ i < machine.executions (.act .read) s count,
      s.store.console.input.getD i 0 = t.store.console.input.getD i 0) :
    (machine.step^[count] s).Matches Store.SameButInput (machine.step^[count] t) ∧
      machine.executions (.act .read) t count = machine.executions (.act .read) s count := by
  induction count with
  | zero => exact ⟨h, rfl⟩
  | succ count ih =>
    have hsucc : machine.executions (.act .read) s (count + 1) =
        machine.executions (.act .read) s count +
          if machine.ExecutesOp (.act .read) (machine.step^[count] s) then 1 else 0 :=
      Nat.count_succ ..
    obtain ⟨hmatches, hreads⟩ := ih fun i hi => hinput i (by omega)
    have hexecutes : machine.ExecutesOp (.act .read) (machine.step^[count] t) ↔
        machine.ExecutesOp (.act .read) (machine.step^[count] s) := by
      rw [executesOp_iff, executesOp_iff, hmatches.move_eq]
    constructor
    · rw [Function.iterate_succ_apply', Function.iterate_succ_apply']
      apply hmatches.step_of_perform hmatches.store.nonzero
      intro action hmove
      apply hmatches.store.perform
      rintro rfl
      rw [if_pos (executesOp_iff.2 hmove)] at hsucc
      -- The byte read now is the one behind those read before, in both runs.
      have hbyte := hinput (machine.executions (.act .read) s count) (by omega)
      simpa [input_iterate, hreads] using hbyte
    · rw [hsucc, ← hreads, executions, Nat.count_succ]
      simp only [hexecutes]
      rfl

theorem exists_run?_of_input (h : s.Matches Store.SameButInput t) {fuel : Nat} {final : State}
    (hfinal : machine.run? fuel s = some final)
    (hinput : ∀ i < machine.executions (.act .read) s fuel,
      s.store.console.input.getD i 0 = t.store.console.input.getD i 0) :
    ∃ final', machine.Halts t final' ∧ final.Matches Store.SameButInput final' := by
  obtain ⟨rfl, hhalt⟩ := run?_eq_some_iff.1 hfinal
  have hmatches := (matches_iterate_of_input h hinput).1
  exact ⟨_, halts_iff.2 ⟨⟨fuel, rfl⟩, hmatches.halt ▸ hhalt⟩, hmatches⟩

end Machine

open Machine

/-- A run on the input `u` that executes `,` no more than `r` times has the same results on every
input with the same first `r` bytes, where an input that ends earlier counts as followed by zeros. So
no run can tell the end of its input from zeros. -/
theorem unread_input_is_irrelevant (machine : Machine) (tape : Tape) (u v : List UInt8) :
    (∀ fuel final, machine.run? fuel (.start tape u) = some final →
      (∀ i < machine.executions (.act .read) (.start tape u) fuel, u.getD i 0 = v.getD i 0) →
        ∃ final', machine.Halts (.start tape v) final' ∧
          final'.store.tape = final.store.tape ∧
          final'.store.console.output = final.store.console.output ∧
          final'.store.lowest = final.store.lowest ∧ final'.steps = final.steps ∧
          final'.halt? = final.halt?) ∧
    ∀ zeros,
      (∀ final, machine.Halts (.start tape u) final →
        ∃ final', machine.Halts (.start tape (u ++ List.replicate zeros 0)) final' ∧
          final.Matches Store.SameButInput final') ∧
      ∀ final', machine.Halts (.start tape (u ++ List.replicate zeros 0)) final' →
        ∃ final, machine.Halts (.start tape u) final ∧
          final.Matches Store.SameButInput final' := by
  have hstart : ∀ other other', (State.start tape other).Matches Store.SameButInput
      (State.start tape other') := fun _ _ => ⟨⟨rfl, rfl, rfl⟩, rfl, rfl, rfl⟩
  refine ⟨?_, ?_⟩
  · intro fuel final hfinal hagree
    obtain ⟨final', hfinal', hmatches⟩ := exists_run?_of_input (hstart u v) hfinal hagree
    exact ⟨final', hfinal', hmatches.store.tape.symm, hmatches.store.output.symm,
      hmatches.store.lowest.symm, hmatches.steps.symm, hmatches.halt.symm⟩
  · intro zeros
    have hzeros : ∀ i, (u ++ List.replicate zeros 0).getD i 0 = u.getD i 0 := by
      intro i
      simp only [List.getD_eq_getElem?_getD, List.getElem?_append, List.getElem?_replicate]
      grind
    refine ⟨?_, ?_⟩
    · rintro final ⟨fuel, hfinal⟩
      exact exists_run?_of_input (hstart _ _) hfinal fun i _ => (hzeros i).symm
    · rintro final' ⟨fuel, hfinal'⟩
      obtain ⟨final, hfinal, hmatches⟩ :=
        exists_run?_of_input (hstart _ u) hfinal' fun i _ => hzeros i
      exact ⟨final, hfinal, hmatches.store.symm, hmatches.position.symm, hmatches.steps.symm,
        hmatches.halt.symm⟩

/-- The program `,[.,]` copies its input till a zero. It reads two bytes where one byte is given, so
a zero may follow that byte, and anything may follow the zero. -/
theorem copied_input_ends_at_zero :
    let program : Program := ⟨#[.act .read, .loopBegin, .act .write, .act .read, .loopEnd],
      #[0, 4, 2, 3, 1], rfl⟩
    (unlimited program false).executions (.act .read) (.start .empty [65]) 20 = 2 ∧
      ∃ final', (unlimited program false).Halts (.start .empty [65, 0, 66]) final' ∧
        final'.store.console.output = #[65] ∧ final'.steps = 6 := by
  intro program
  have hreads : (unlimited program false).executions (.act .read) (.start .empty [65]) 20 = 2 := by
    decide +kernel
  have hrun : ((unlimited program false).run? 20 (.start .empty [65])).map (fun final =>
      (final.store.console.output, final.steps)) = some (#[65], 6) := by
    decide +kernel
  obtain ⟨final, hfinal, hresult⟩ := Option.map_eq_some_iff.1 hrun
  obtain ⟨houtput, hsteps⟩ := Prod.mk.inj hresult
  have hagree : ∀ i < (unlimited program false).executions (.act .read) (.start .empty [65]) 20,
      ([65] : List UInt8).getD i 0 = [65, 0, 66].getD i 0 := by
    rw [hreads]
    decide
  obtain ⟨final', hfinal', -, houtput', -, hsteps', -⟩ :=
    (unread_input_is_irrelevant (unlimited program false) .empty [65] [65, 0, 66]).1 20 final hfinal
      hagree
  exact ⟨hreads, final', hfinal', houtput'.trans houtput, hsteps'.trans hsteps⟩

end ByteTape
