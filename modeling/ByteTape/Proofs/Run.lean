import Mathlib.Logic.Function.Iterate
import Mathlib.Order.Bounds.Basic
import Mathlib.Order.Interval.Set.Basic
import ByteTape.Machine.Run
import ByteTape.Proofs.Evaluation
import ByteTape.Proofs.Nesting

/-!
# Runs

A run is the iteration of `step`, which leaves a halted state alone. Where the code of a block
stands in a program, a machine without a step limit goes through it as the block is evaluated
(`passes_of_evaluates`), and a run that halts was an evaluation (`exists_evaluates_of_halted`). So
runs of a program and evaluations of its block are the same (`halts_iff_evaluates`).
-/

namespace ByteTape

namespace Machine

/-- The run from `s` comes to a halt in `t`. -/
def Halts [IndexSpace] (machine : Machine) (s t : State) : Prop :=
  ∃ fuel, machine.run? fuel s = some t

/-- A machine that may execute any number of opcodes. -/
def unlimited (program : Program) (trace : Bool) : Machine := ⟨program, ⟨none, trace⟩⟩

variable [IndexSpace] {machine : Machine}

/-! ### Iterated steps -/

theorem step_of_halted {s : State} (h : s.halt?.isSome) : machine.step s = s := by
  obtain ⟨reason, hreason⟩ := Option.isSome_iff_exists.1 h
  simp [step, move, hreason]

theorem iterate_step_of_halted {s : State} (h : s.halt?.isSome) (count : Nat) :
    machine.step^[count] s = s :=
  Function.iterate_fixed (step_of_halted h) count

theorem run?_eq_some_iff {fuel : Nat} {s t : State} :
    machine.run? fuel s = some t ↔ machine.step^[fuel] s = t ∧ t.halt?.isSome := by
  induction fuel generalizing s with
  | zero =>
    unfold run?
    split <;> rename_i hhalt
    · constructor
      · rintro ⟨⟩
        exact ⟨rfl, hhalt⟩
      · rintro ⟨rfl, -⟩
        rfl
    · constructor
      · rintro ⟨⟩
      · rintro ⟨rfl, hhalt'⟩
        exact absurd hhalt' hhalt
  | succ fuel ih =>
    unfold run?
    split <;> rename_i hhalt
    · rw [iterate_step_of_halted hhalt]
      constructor
      · rintro ⟨⟩
        exact ⟨rfl, hhalt⟩
      · rintro ⟨rfl, -⟩
        rfl
    · rw [ih, Function.iterate_succ_apply]

theorem halts_iff {s t : State} :
    machine.Halts s t ↔ (∃ count, machine.step^[count] s = t) ∧ t.halt?.isSome := by
  constructor
  · rintro ⟨fuel, hfuel⟩
    obtain ⟨hstep, hhalt⟩ := run?_eq_some_iff.1 hfuel
    exact ⟨⟨fuel, hstep⟩, hhalt⟩
  · rintro ⟨⟨count, hcount⟩, hhalt⟩
    exact ⟨count, run?_eq_some_iff.2 ⟨hcount, hhalt⟩⟩

/-- Nothing happens after a halt. -/
theorem iterate_step_eq_of_le {s : State} {count more : Nat} (hle : count ≤ more)
    (h : (machine.step^[count] s).halt?.isSome) :
    machine.step^[more] s = machine.step^[count] s := by
  obtain ⟨extra, rfl⟩ := Nat.exists_eq_add_of_le' hle
  rw [Function.iterate_add_apply, iterate_step_of_halted h]

theorem Halts.unique {s t u : State} (h : machine.Halts s t) (h' : machine.Halts s u) : t = u := by
  obtain ⟨⟨m, rfl⟩, ht⟩ := halts_iff.1 h
  obtain ⟨⟨n, rfl⟩, hu⟩ := halts_iff.1 h'
  rcases Nat.le_total m n with hle | hle
  · exact (iterate_step_eq_of_le hle ht).symm
  · exact iterate_step_eq_of_le hle hu

theorem step_of_opcode {s : State} {op : Opcode} (hhalt : s.halt? = none)
    (hop : machine.program.code[s.position]? = some op)
    (hroom : machine.config.spent s.steps = false) :
    machine.step s = execute machine.program op s := by
  rw [← Program.opcode?_eq] at hop
  simp [step, move, hhalt, hop, hroom]

theorem step_of_spent {s : State} {op : Opcode} (hhalt : s.halt? = none)
    (hop : machine.program.code[s.position]? = some op)
    (hspent : machine.config.spent s.steps = true) : machine.step s = s.halt .stepLimit := by
  rw [← Program.opcode?_eq] at hop
  simp [step, move, hhalt, hop, hspent]

theorem step_of_end {s : State} (hhalt : s.halt? = none)
    (hend : machine.program.code.length ≤ s.position) : machine.step s = s.halt .completed := by
  have hop : machine.program.opcode? s.position = none := by
    rw [Program.opcode?_eq, List.getElem?_eq_none hend]
  simp [step, move, hhalt, hop]

/-! ### Passing through code -/

/-- After `count` steps from `s` the machine is in `t`, and till then at positions of `region`. -/
structure Passes (machine : Machine) (region : Set Nat) (count : Nat) (s t : State) : Prop where
  arrives : machine.step^[count] s = t
  within : ∀ i < count, (machine.step^[i] s).position ∈ region

namespace Passes

variable {region : Set Nat} {s u t : State}

theorem refl (region : Set Nat) (s : State) : machine.Passes region 0 s s :=
  ⟨rfl, fun _ hi => absurd hi (Nat.not_lt_zero _)⟩

theorem trans {m n : Nat} (h : machine.Passes region m s u) (h' : machine.Passes region n u t) :
    machine.Passes region (m + n) s t := by
  refine ⟨?_, ?_⟩
  · rw [Nat.add_comm, Function.iterate_add_apply, h.arrives, h'.arrives]
  · intro i hi
    by_cases him : i < m
    · exact h.within i him
    · obtain ⟨j, rfl⟩ := Nat.exists_eq_add_of_le (Nat.le_of_not_lt him)
      rw [Nat.add_comm m j, Function.iterate_add_apply, h.arrives]
      exact h'.within j (by omega)

theorem mono {larger : Set Nat} {count : Nat} (h : machine.Passes region count s t)
    (hsub : region ⊆ larger) : machine.Passes larger count s t :=
  ⟨h.arrives, fun i hi => hsub (h.within i hi)⟩

theorem to_eq {count count' position position' steps steps' : Nat} {store : Store}
    (h : machine.Passes region count s ⟨store, position, steps, none⟩) (hcount : count = count')
    (hposition : position = position') (hsteps : steps = steps') :
    machine.Passes region count' s ⟨store, position', steps', none⟩ := by
  subst hcount hposition hsteps
  exact h

theorem head {count : Nat} (hstep : machine.step s = u) (hmem : s.position ∈ region)
    (h : machine.Passes region count u t) : machine.Passes region (count + 1) s t := by
  refine ⟨?_, ?_⟩
  · rw [Function.iterate_succ_apply, hstep, h.arrives]
  · intro i hi
    cases i with
    | zero => exact hmem
    | succ i =>
      rw [Function.iterate_succ_apply, hstep]
      exact h.within i (Nat.lt_of_succ_lt_succ hi)

end Passes

section Unlimited

variable {program : Program} {trace : Bool} {s t : Store} {position steps : Nat}

theorem step_act {action : Action} (h : program.code[position]? = some (.act action)) :
    (unlimited program trace).step ⟨s, position, steps, none⟩ =
      ⟨s.perform action, position + 1, steps + 1, none⟩ := by
  rw [step_of_opcode rfl h rfl, execute]

theorem step_enter (h : program.code[position]? = some .loopBegin) (hnonzero : s.nonzero = true) :
    (unlimited program trace).step ⟨s, position, steps, none⟩ =
      ⟨s, position + 1, steps + 1, none⟩ := by
  rw [step_of_opcode rfl h rfl, execute]
  exact if_pos hnonzero

theorem step_skip (h : program.code[position]? = some .loopBegin) (hzero : s.nonzero = false) :
    (unlimited program trace).step ⟨s, position, steps, none⟩ =
      ⟨s, program.partner position + 1, steps + 1, none⟩ := by
  rw [step_of_opcode rfl h rfl, execute]
  exact if_neg (Bool.eq_false_iff.1 hzero)

theorem step_back (h : program.code[position]? = some .loopEnd) :
    (unlimited program trace).step ⟨s, position, steps, none⟩ =
      ⟨s, program.partner position, steps + 1, none⟩ := by
  rw [step_of_opcode rfl h rfl, execute]
  rfl

omit [IndexSpace] in
/-- Where the opcodes of a loop stand, and how they are partners. -/
theorem stands_loop {body rest : Block}
    (h : Code.Stands (Block.loop body rest).code program.code position) :
    program.code[position]? = some .loopBegin ∧
      Code.Stands body.code program.code (position + 1) ∧
      program.code[position + 1 + body.code.length]? = some .loopEnd ∧
      Code.Stands rest.code program.code (position + 1 + body.code.length + 1) ∧
      program.partner position = position + 1 + body.code.length ∧
      program.partner (position + 1 + body.code.length) = position := by
  obtain ⟨hopen, hinner⟩ := h.cons
  obtain ⟨hbody, houter⟩ := hinner.append
  obtain ⟨hclose, hrest⟩ := houter.cons
  have hsplit : (Block.loop body rest).code = (Block.loop body .done).code ++ rest.code := by
    simp [Block.code]
  rw [hsplit] at h
  exact ⟨hopen, hbody, hclose, hrest, Program.partner_of_stands h.append.1⟩

omit [IndexSpace] in
theorem length_code_loop (body rest : Block) :
    (Block.loop body rest).code.length = body.code.length + rest.code.length + 2 := by
  simp only [Block.code, List.length_cons, List.length_append]
  omega

theorem passes_of_evaluates {block : Block} {cost : Nat}
    (h : Block.Evaluates Store.device block s cost t)
    (hstands : Code.Stands block.code program.code position) :
    (unlimited program trace).Passes (Set.Ico position (position + block.code.length)) cost
      ⟨s, position, steps, none⟩ ⟨t, position + block.code.length, steps + cost, none⟩ := by
  induction h generalizing position steps with
  | done => exact Passes.refl _ _
  | @act action rest s t cost tail ih =>
    obtain ⟨hop, hrest⟩ := hstands.cons
    have hlength : (Block.act action rest).code.length = rest.code.length + 1 := rfl
    refine Passes.head (step_act hop) ⟨Nat.le_refl _, by simp only; omega⟩ ?_
    refine ((ih hrest).mono (Set.Ico_subset_Ico ?_ ?_)).to_eq rfl ?_ ?_ <;> omega
  | @leave body rest s t cost hzero tail ih =>
    obtain ⟨hopen, -, -, hrest, hpartner, -⟩ := stands_loop hstands
    have hlength := length_code_loop body rest
    refine Passes.head (step_skip hopen hzero) ⟨Nat.le_refl _, by simp only; omega⟩ ?_
    rw [hpartner]
    refine ((ih hrest).mono (Set.Ico_subset_Ico ?_ ?_)).to_eq rfl ?_ ?_ <;> omega
  | @again body rest s u t cost more hnonzero round tail ihround ihtail =>
    obtain ⟨hopen, hbody, hclose, -, -, hpartner⟩ := stands_loop hstands
    have hlength := length_code_loop body rest
    have hround : (unlimited program trace).Passes
        (Set.Ico position (position + (Block.loop body rest).code.length)) cost
        ⟨s, position + 1, steps + 1, none⟩
        ⟨u, position + 1 + body.code.length, steps + 1 + cost, none⟩ :=
      (ihround hbody).mono (Set.Ico_subset_Ico (by omega) (by omega))
    refine Passes.head (step_enter hopen hnonzero) ⟨Nat.le_refl _, by simp only; omega⟩ ?_
    refine hround.trans (Passes.head (step_back hclose) ⟨?_, ?_⟩ ?_)
    · simp only
      omega
    · simp only
      omega
    · rw [hpartner]
      exact (ihtail hstands).to_eq rfl rfl (by omega)

/-- A run that halts has evaluated every block it started with, and in no more steps. -/
theorem exists_evaluates_of_halted {block : Block} {count : Nat}
    (hstands : Code.Stands block.code program.code position)
    (hhalt : ((unlimited program trace).step^[count] ⟨s, position, steps, none⟩).halt?.isSome) :
    ∃ cost t, Block.Evaluates Store.device block s cost t ∧ cost ≤ count := by
  -- The induction is on the steps left, of which each opcode takes one, so that it covers both the
  -- body of a loop and what the loop does after it.
  induction count using Nat.strong_induction_on generalizing block s position steps with
  | _ count ih =>
  cases count with
  | zero => cases hhalt
  | succ count =>
    rw [Function.iterate_succ_apply] at hhalt
    cases block with
    | done => exact ⟨0, s, .done, Nat.zero_le _⟩
    | act action rest =>
      obtain ⟨hop, hrest⟩ := hstands.cons
      rw [step_act hop] at hhalt
      obtain ⟨cost, t, htail, hcost⟩ := ih count (Nat.lt_succ_self _) hrest hhalt
      exact ⟨cost + 1, t, .act htail, Nat.succ_le_succ hcost⟩
    | loop body rest =>
      obtain ⟨hopen, hbody, hclose, hrest, hnext, hprevious⟩ := stands_loop hstands
      cases hnonzero : s.nonzero with
      | false =>
        rw [step_skip hopen hnonzero, hnext] at hhalt
        obtain ⟨cost, t, htail, hcost⟩ := ih count (Nat.lt_succ_self _) hrest hhalt
        exact ⟨cost + 1, t, .leave hnonzero htail, Nat.succ_le_succ hcost⟩
      | true =>
        rw [step_enter hopen hnonzero] at hhalt
        obtain ⟨cost, u, hround, hcost⟩ := ih count (Nat.lt_succ_self _) hbody hhalt
        obtain ⟨left, rfl⟩ := Nat.exists_eq_add_of_le' hcost
        rw [Function.iterate_add_apply, (passes_of_evaluates hround hbody).arrives] at hhalt
        cases left with
        | zero => cases hhalt
        | succ left =>
          rw [Function.iterate_succ_apply, step_back hclose, hprevious] at hhalt
          obtain ⟨more, t, htail, hmore⟩ := ih left (by omega) hstands hhalt
          exact ⟨cost + more + 2, t, .again hnonzero hround htail, by omega⟩

theorem halts_iff_evaluates {block : Block} (hblock : block.code = program.code) {final : State} :
    (unlimited program trace).Halts ⟨s, 0, 0, none⟩ final ↔
      ∃ cost t, Block.Evaluates Store.device block s cost t ∧
        final = ⟨t, program.size, cost, some .completed⟩ := by
  have hstands : Code.Stands block.code program.code 0 := by
    rw [hblock]
    exact List.prefix_refl _
  have hcompletes : ∀ {cost : Nat} {t : Store}, Block.Evaluates Store.device block s cost t →
      (unlimited program trace).Halts ⟨s, 0, 0, none⟩
        ⟨t, program.size, cost, some .completed⟩ := by
    intro cost t heval
    refine halts_iff.2 ⟨⟨cost + 1, ?_⟩, rfl⟩
    rw [Function.iterate_succ_apply', (passes_of_evaluates heval hstands).arrives, hblock,
      Nat.zero_add, Nat.zero_add, Program.length_code]
    exact step_of_end rfl (Nat.le_refl _)
  constructor
  · intro hhalts
    obtain ⟨⟨count, hcount⟩, hhalt⟩ := halts_iff.1 hhalts
    obtain ⟨cost, t, heval, -⟩ := exists_evaluates_of_halted hstands (hcount ▸ hhalt)
    exact ⟨cost, t, heval, hhalts.unique (hcompletes heval)⟩
  · rintro ⟨cost, t, heval, rfl⟩
    exact hcompletes heval

end Unlimited

end Machine

end ByteTape
