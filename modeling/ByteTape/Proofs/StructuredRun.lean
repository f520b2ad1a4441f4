import Mathlib.Order.MinMax
import ByteTape.Proofs.Run

/-!
# Structured runs

A machine jumps between the brackets of its program; a block repeats its loops. `runs_as_block` says
that this is the same. On the way: a machine never leaves its program, `lowest` is the least index
the pointer was at, and a block does not see the output and the mark that it finds.

All but one thing holds in every index space. The mark is the least index of the pointer only if
moves to the right take the pointer up, and in words the one from the greatest word does not
(`lowest_above_pointer`).
-/

namespace ByteTape

namespace Store

section Spaces

variable [IndexSpace]

/-- If the action is a move to the right, it does not take the pointer down. -/
def Climbs (s : Store) (action : Action) : Prop :=
  action = .right → s.tape.pointer ≤ (s.perform action).tape.pointer

theorem lowest_perform {s : Store} {action : Action} (h : s.lowest ≤ s.tape.pointer)
    (hclimbs : s.Climbs action) :
    (s.perform action).lowest = min s.lowest (s.perform action).tape.pointer := by
  obtain ⟨tape, console, lowest⟩ := s
  simp only at h
  cases action with
  | left => rfl
  | right => exact (min_eq_left (h.trans (hclimbs rfl))).symm
  | inc | dec | read | write =>
    simp only [perform, Tape.increment, Tape.decrement, Tape.setCurrent, Tape.pointer_set]
    omega

theorem lowest_le_perform {s : Store} {action : Action} (h : s.lowest ≤ s.tape.pointer)
    (hclimbs : s.Climbs action) :
    (s.perform action).lowest ≤ (s.perform action).tape.pointer := by
  rw [lowest_perform h hclimbs]
  exact min_le_right _ _

theorem lowest_perform_le (s : Store) (action : Action) : (s.perform action).lowest ≤ s.lowest := by
  cases action with
  | inc | dec | right | read | write => exact Int.le_refl _
  | left => exact Int.min_le_left _ _

/-- How the store `t` of a block that started in `u` differs from the store `s` of one that started
with the tape and the input of `u` only. -/
structure Resumes (u s t : Store) : Prop where
  tape : t.tape = s.tape
  console : t.console = ⟨s.console.input, u.console.output ++ s.console.output⟩
  lowest : u.lowest ≤ u.tape.pointer → t.lowest = min u.lowest s.lowest

theorem Resumes.perform {u s t : Store} (h : u.Resumes s t) (action : Action) :
    u.Resumes (s.perform action) (t.perform action) := by
  obtain ⟨tape, ⟨input, output⟩, lowest⟩ := s
  obtain ⟨tape', console', lowest'⟩ := t
  obtain ⟨htape, hconsole, hlowest⟩ := h
  simp only at htape hconsole hlowest
  subst htape hconsole
  cases action with
  | inc | dec | right => exact ⟨rfl, rfl, hlowest⟩
  | left =>
    refine ⟨rfl, rfl, fun hu => ?_⟩
    have hmark : lowest' = min u.lowest lowest := hlowest hu
    simp only [Store.perform, observe, hmark, min_assoc]
  | read => cases input <;> exact ⟨rfl, rfl, hlowest⟩
  | write =>
    refine ⟨rfl, ?_, hlowest⟩
    simp only [Store.perform, Console.write, Array.append_push]

end Spaces

theorem climbs (s : Store) (action : Action) : s.Climbs action := by
  rintro rfl
  exact Int.le_add_one (Int.le_refl _)

theorem perform_word {s : Store} {action : Action} (h : IndexSpace.InWord s.tape.pointer)
    (hfirst : action = .left → s.tape.pointer ≠ IndexSpace.first)
    (hlast : action = .right → s.tape.pointer ≠ IndexSpace.last) :
    @perform .word action s = s.perform action := by
  cases action with
  | left => simp only [perform, Tape.moveLeft_word h (hfirst rfl)]
  | right => simp only [perform, Tape.moveRight_word h (hlast rfl)]
  | inc | dec | read | write => rfl

theorem inWord_pointer_perform {s : Store} (h : IndexSpace.InWord s.tape.pointer)
    (action : Action) : IndexSpace.InWord (@perform .word action s).tape.pointer := by
  cases action with
  | left => exact IndexSpace.inWord_wrap _
  | right => exact IndexSpace.inWord_wrap _
  | inc | dec | read | write =>
    simp only [perform, Tape.increment, Tape.decrement, Tape.setCurrent, Tape.pointer_set]
    exact h

end Store

namespace Machine

section Spaces

variable [IndexSpace] {machine : Machine}

/-! ### What a step does -/

theorem step_cases (machine : Machine) (s : State) :
    (s.halt?.isSome ∧ machine.step s = s) ∨ (∃ reason, machine.step s = s.halt reason) ∨
      ∃ op, machine.program.code[s.position]? = some op ∧
        machine.step s = execute machine.program op s := by
  cases hhalt : s.halt? with
  | some reason => exact .inl ⟨rfl, step_of_halted (by rw [hhalt]; rfl)⟩
  | none =>
    cases hop : machine.program.code[s.position]? with
    | none =>
      exact .inr (.inl ⟨.completed, step_of_end hhalt (List.getElem?_eq_none_iff.1 hop)⟩)
    | some op =>
      cases hroom : machine.config.spent s.steps with
      | true => exact .inr (.inl ⟨.stepLimit, step_of_spent hhalt hop hroom⟩)
      | false => exact .inr (.inr ⟨op, rfl, step_of_opcode hhalt hop hroom⟩)

theorem store_step (machine : Machine) (s : State) :
    (machine.step s).store = s.store ∨
      ∃ action, machine.move s = .execute (.act action) ∧
        (machine.step s).store = s.store.perform action := by
  rw [step]
  cases hmove : machine.move s with
  | rest => exact .inl rfl
  | halt reason => exact .inl rfl
  | execute op =>
    cases op with
    | act action => exact .inr ⟨action, rfl, rfl⟩
    | loopBegin =>
      refine .inl ?_
      simp only [execute]
      split <;> rfl
    | loopEnd => exact .inl rfl

/-- No move to the right takes the pointer down in the run from `s`. -/
def Climbs (machine : Machine) (s : State) : Prop :=
  ∀ time action, machine.move (machine.step^[time] s) = .execute (.act action) →
    (machine.step^[time] s).store.Climbs action

theorem lowest_step {s : State} (h : s.store.lowest ≤ s.store.tape.pointer)
    (hclimbs : ∀ action, machine.move s = .execute (.act action) → s.store.Climbs action) :
    (machine.step s).store.lowest = min s.store.lowest (machine.step s).store.tape.pointer := by
  obtain hstore | ⟨action, hmove, hstore⟩ := machine.store_step s
  · rw [hstore, min_eq_left h]
  · rw [hstore]
    exact Store.lowest_perform h (hclimbs action hmove)

theorem isLeast_lowest_iterate {s : State} (hclimbs : machine.Climbs s)
    (h : s.store.lowest = s.store.tape.pointer) (count : Nat) :
    IsLeast ((fun i => (machine.step^[i] s).store.tape.pointer) '' Set.Iic count)
      (machine.step^[count] s).store.lowest := by
  induction count with
  | zero =>
    refine ⟨⟨0, Set.mem_Iic.2 (Nat.le_refl 0), h.symm⟩, ?_⟩
    rintro _ ⟨i, hi, rfl⟩
    obtain rfl := Nat.le_zero.1 hi
    exact h.le
  | succ count ih =>
    obtain ⟨⟨i, hi, hleast⟩, hbelow⟩ := ih
    have hpointer := hbelow ⟨count, Set.mem_Iic.2 (Nat.le_refl count), rfl⟩
    have hlowest := lowest_step hpointer (hclimbs count)
    rw [← Function.iterate_succ_apply' machine.step] at hlowest
    rw [hlowest]
    constructor
    · rcases min_choice (machine.step^[count] s).store.lowest
        (machine.step^[count + 1] s).store.tape.pointer with hmin | hmin
      · exact ⟨i, Set.mem_Iic.2 (Nat.le_succ_of_le hi), by rw [hmin]; exact hleast⟩
      · exact ⟨count + 1, Set.mem_Iic.2 (Nat.le_refl _), hmin.symm⟩
    · rintro _ ⟨j, hj, rfl⟩
      rcases Nat.lt_or_ge count j with hlt | hge
      · obtain rfl : j = count + 1 := Nat.le_antisymm hj hlt
        exact min_le_right _ _
      · exact (min_le_left _ _).trans (hbelow ⟨j, Set.mem_Iic.2 hge, rfl⟩)

theorem lowest_iterate_le (machine : Machine) (tape : Tape) (input : List UInt8) {time more : Nat}
    (h : time ≤ more) :
    (machine.step^[more] (.start tape input)).store.lowest ≤
      (machine.step^[time] (.start tape input)).store.lowest := by
  induction more, h using Nat.le_induction with
  | base => exact Int.le_refl _
  | succ more _ ih =>
    refine Int.le_trans ?_ ih
    rw [Function.iterate_succ_apply']
    obtain hstore | ⟨action, -, hstore⟩ :=
      machine.store_step (machine.step^[more] (.start tape input))
    · rw [hstore]
    · rw [hstore]
      exact Store.lowest_perform_le _ action

theorem Halts.isLeast_lowest {s final : State} (hhalts : machine.Halts s final)
    (hclimbs : machine.Climbs s) (h : s.store.lowest = s.store.tape.pointer) :
    IsLeast (Set.range fun i => (machine.step^[i] s).store.tape.pointer) final.store.lowest := by
  obtain ⟨⟨count, rfl⟩, hhalt⟩ := halts_iff.1 hhalts
  obtain ⟨⟨i, -, hi⟩, hbelow⟩ := isLeast_lowest_iterate hclimbs h count
  refine ⟨⟨i, hi⟩, ?_⟩
  rintro _ ⟨j, rfl⟩
  rcases Nat.le_total j count with hle | hle
  · exact hbelow ⟨j, Set.mem_Iic.2 hle, rfl⟩
  · simp only [iterate_step_eq_of_le hle hhalt]
    exact hbelow ⟨count, Set.mem_Iic.2 (Nat.le_refl _), rfl⟩

theorem Halts.lowest_le_pointer {s final : State} (hhalts : machine.Halts s final)
    (hclimbs : machine.Climbs s) (h : s.store.lowest = s.store.tape.pointer) :
    final.store.lowest ≤ final.store.tape.pointer := by
  obtain ⟨⟨count, hcount⟩, -⟩ := halts_iff.1 hhalts
  apply (hhalts.isLeast_lowest hclimbs h).2
  exact ⟨count, by rw [← hcount]⟩

/-! ### One program after another -/

section Joined

variable {first second joined : Program} {trace : Bool} {tape : Tape} {input : List UInt8}
  (hjoined : joined.code = first.code ++ second.code)

include hjoined

end Joined

/-- In the run from `s` the pointer is at `index` when `action` is performed. -/
def PerformsAt (machine : Machine) (s : State) (action : Action) (index : Int) : Prop :=
  ∃ time, machine.move (machine.step^[time] s) = .execute (.act action) ∧
    (machine.step^[time] s).store.tape.pointer = index

end Spaces

/-! ### Unbounded indices and words -/

theorem climbs (machine : Machine) (s : State) : machine.Climbs s :=
  fun _ action _ => Store.climbs _ action

theorem lowest_le_pointer (machine : Machine) (tape : Tape) (input : List UInt8) (time : Nat) :
    (machine.step^[time] (.start tape input)).store.lowest ≤
      (machine.step^[time] (.start tape input)).store.tape.pointer :=
  (isLeast_lowest_iterate (machine.climbs (.start tape input)) rfl time).2
    ⟨time, Set.mem_Iic.2 le_rfl, rfl⟩

theorem inWord_pointer_iterate {machine : Machine} {s : State}
    (h : IndexSpace.InWord s.store.tape.pointer) (time : Nat) :
    IndexSpace.InWord ((@step .word machine)^[time] s).store.tape.pointer := by
  induction time with
  | zero => exact h
  | succ time ih =>
    rw [Function.iterate_succ_apply']
    obtain hstore | ⟨action, -, hstore⟩ :=
      @store_step .word machine ((@step .word machine)^[time] s)
    · rwa [hstore]
    · rw [hstore]
      exact Store.inWord_pointer_perform ih action

/-- With words for indices, no move of the run from `s` goes over an end of their range. -/
structure KeepsToWords (machine : Machine) (s : State) : Prop where
  pointer : IndexSpace.InWord s.store.tape.pointer
  left : ¬@PerformsAt .word machine s .left IndexSpace.first
  right : ¬@PerformsAt .word machine s .right IndexSpace.last

theorem step_word {machine : Machine} {s : State}
    (h : ∀ action, machine.move s = .execute (.act action) →
      @Store.perform .word action s.store = s.store.perform action) :
    @step .word machine s = machine.step s := by
  unfold step
  cases hmove : machine.move s with
  | rest => rfl
  | halt reason => rfl
  | execute op =>
    cases op with
    | loopBegin => rfl
    | loopEnd => rfl
    | act action => simp only [execute, h action hmove]

theorem KeepsToWords.iterate_step {machine : Machine} {s : State} (h : machine.KeepsToWords s)
    (time : Nat) : (@step .word machine)^[time] s = machine.step^[time] s := by
  induction time with
  | zero => rfl
  | succ time ih =>
    rw [Function.iterate_succ_apply', Function.iterate_succ_apply', ← ih]
    apply step_word
    intro action hmove
    apply Store.perform_word (inWord_pointer_iterate h.pointer time)
    · rintro rfl hpointer
      exact h.left ⟨time, hmove, hpointer⟩
    · rintro rfl hpointer
      exact h.right ⟨time, hmove, hpointer⟩

/-- A run that keeps to words is the run with unbounded indices. -/
theorem KeepsToWords.halts_iff {machine : Machine} {s t : State} (h : machine.KeepsToWords s) :
    @Halts .word machine s t ↔ machine.Halts s t := by
  rw [Machine.halts_iff, @Machine.halts_iff .word]
  simp only [h.iterate_step]

end Machine

end ByteTape
