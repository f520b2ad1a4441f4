import Mathlib.Data.Nat.Count
import Mathlib.Order.Monotone.Basic
import ByteTape.Proofs.Simulation

/-!
# Stages of a run

The run of assembled code from a blank tape is cut into stages by the ends of operations. After the
preamble the row of chains is the first one of the source, and each operation that ends takes the
source one step on. So the row at the end of an operation is found by counting the operations that
ended before (`ends_of_isLast`), and the run completes exactly if the source does
(`exists_halts_iff`).
-/

namespace ByteTape

open Operation

namespace Machine

/-- How many operations have ended in the first `count` steps from `s`. -/
def ended (machine : Machine) (operations : List Operation) (s : State) (count : Nat) : Nat :=
  Nat.count (fun i => IsLast operations (machine.step^[i] s).position) count

variable {machine : Machine} {source : Code} {program : Program} {trace : Bool} {block : Block}
  {input : List UInt8}

theorem ended_succ {operations : List Operation} {s : State} {count : Nat}
    (h : IsLast operations (machine.step^[count] s).position) :
    machine.ended operations s (count + 1) = machine.ended operations s count + 1 := by
  rw [ended, Nat.count_succ, if_pos h, ended]

theorem ended_succ_of_not {operations : List Operation} {s : State} {count : Nat}
    (h : ¬IsLast operations (machine.step^[count] s).position) :
    machine.ended operations s (count + 1) = machine.ended operations s count := by
  rw [ended, Nat.count_succ, if_neg h, ended, Nat.add_zero]

/-- The next operation to end after `count` steps. -/
theorem Completes.exists_iterate {s t : State} {count : Nat}
    (h : machine.Completes (lastPositions source) (machine.step^[count] s) t) :
    ∃ last, machine.step^[last + 1] s = t ∧
      IsLast (source.map command) (machine.step^[last] s).position ∧
      machine.ended (source.map command) s last = machine.ended (source.map command) s count := by
  obtain ⟨more, u, hpasses, hend, hstep⟩ := h
  have hiterate : ∀ i, machine.step^[count + i] s = machine.step^[i] (machine.step^[count] s) := by
    intro i
    rw [Nat.add_comm, Function.iterate_add_apply]
  refine ⟨count + more, ?_, ?_, ?_⟩
  · rw [Function.iterate_succ_apply', hiterate, hpasses.arrives, hstep]
  · rw [hiterate, hpasses.arrives]
    exact hend
  · rw [ended, Nat.count_add, ended, Nat.add_eq_left, Nat.count_iff_forall_not]
    intro i hi
    rw [hiterate]
    exact hpasses.within i hi

/-- Operation number `count` ends with step `last`, the preamble being number 0. -/
structure Ends (program : Program) (trace : Bool) (source : Code) (block : Block)
    (input : List UInt8) (count last : Nat) : Prop where
  isLast : IsLast (source.map command)
    ((unlimited program trace).step^[last] (.start .empty input)).position
  ended_eq : (unlimited program trace).ended (source.map command) (.start .empty input) last = count
  arrives : ∃ place store steps,
    (unlimited program trace).step^[last + 1] (.start .empty input) =
        ⟨store, offset (source.map command) place, steps, none⟩ ∧
      Ahead source place (Chains.stage block input count).1 ∧
        store.Shows (Chains.stage block input count).2

theorem exists_ends (hcode : program.code = compile (source.map command))
    (hblock : block.code = source)
    (count : Nat) (hlive : ∀ i < count, (Chains.stage block input i).1 ≠ .done) :
    ∃ last, Ends program trace source block input count last := by
  induction count with
  | zero =>
    obtain ⟨store, steps, hshows, hcompletes⟩ :
        ∃ store steps, store.Shows (.start input) ∧
          (unlimited program trace).Completes (lastPositions source)
            ((unlimited program trace).step^[0] (.start .empty input))
            ⟨store, offset (source.map command) 0, steps, none⟩ := completes_preamble hcode input
    obtain ⟨last, hlast, hend, hended⟩ := hcompletes.exists_iterate
    exact ⟨last, hend, hended, 0, store, steps, hlast, .of_code hblock, hshows⟩
  | succ count ih =>
    obtain ⟨last, hend, hended, place, store, steps, hlast, hahead, hshows⟩ :=
      ih fun i hi => hlive i (Nat.lt_succ_of_lt hi)
    obtain ⟨⟨block', s'⟩, hnext⟩ :
        ∃ stage, Block.next? Chains.device (Chains.stage block input count) =
        some stage := by
      rw [← Option.ne_none_iff_exists']
      exact fun hnone => hlive count (Nat.lt_succ_self _) (Block.next?_eq_none_iff.1 hnone)
    have hstage : Chains.stage block input (count + 1) = (block', s') := by
      rw [Chains.stage, Block.advance_add]
      exact Block.advance_of_next? hnext 0
    obtain ⟨place', store', steps', hahead', hshows', hcompletes⟩ :=
      exists_completes_of_next? hcode hahead hnext hshows
    rw [← hlast] at hcompletes
    obtain ⟨last', hlast', hend', hended'⟩ := hcompletes.exists_iterate
    refine ⟨last', hend', ?_, place', store', steps', hlast', ?_, ?_⟩
    · rw [hended', ended_succ hend, hended]
    · rwa [hstage]
    · rwa [hstage]

theorem Ahead.eq_length {place : Nat} (h : Ahead source place .done) : place = source.length := by
  cases h
  rfl

/-- An operation after which the source has nothing left to do. -/
theorem Ends.completed {count last : Nat} (h : Ends program trace source block input count last)
    (hcode : program.code = compile (source.map command))
    (hdone : (Chains.stage block input count).1 = .done) :
    ∃ final : State, (unlimited program trace).step^[last + 2] (.start .empty input) = final ∧
      final.halt? = some .completed ∧ final.store.Shows (Chains.stage block input count).2 ∧
      ∀ more > last, ¬IsLast (source.map command)
        ((unlimited program trace).step^[more] (.start .empty input)).position := by
  obtain ⟨-, -, place, store, steps, harrives, hahead, hshows⟩ := h
  rw [hdone] at hahead
  have hplace : offset (source.map command) place = program.code.length := by
    rw [hahead.eq_length, hcode, ← offset_length, List.length_map]
  rw [hplace] at harrives
  have hhalt : (unlimited program trace).step^[last + 2] (.start .empty input) =
      ⟨store, program.code.length, steps, some .completed⟩ := by
    rw [Function.iterate_succ_apply', harrives]
    exact step_of_end rfl (Nat.le_refl _)
  refine ⟨_, hhalt, rfl, hshows, fun more hmore => not_isLast_of_length_le ?_⟩
  rw [← hcode]
  rcases Nat.lt_or_ge more (last + 2) with hlt | hge
  · obtain rfl : more = last + 1 := by omega
    rw [harrives]
  · rw [iterate_step_eq_of_le hge (by rw [hhalt]; rfl), hhalt]

theorem ended_le (machine : Machine) (operations : List Operation) (s : State) (count : Nat) :
    machine.ended operations s count ≤ count := Nat.count_le _

theorem exists_first_done (h : ∃ count, (Chains.stage block input count).1 = .done) :
    ∃ count, (Chains.stage block input count).1 = .done ∧
      ∀ i < count, (Chains.stage block input i).1 ≠ .done :=
  ⟨Nat.find h, Nat.find_spec h, fun _ hi => Nat.find_min h hi⟩

/-- Whatever operation ends in a run is the one that the number of those before it tells. -/
theorem ends_of_isLast (hcode : program.code = compile (source.map command))
    (hblock : block.code = source) {last : Nat}
    (h : IsLast (source.map command)
      ((unlimited program trace).step^[last] (.start .empty input)).position) :
    Ends program trace source block input
      ((unlimited program trace).ended (source.map command) (.start .empty input) last) last := by
  by_cases hlive :
      ∀ i < (unlimited program trace).ended (source.map command) (.start .empty input) last,
      (Chains.stage block input i).1 ≠ .done
  · obtain ⟨last', hends⟩ := exists_ends hcode hblock _ hlive
    obtain rfl : last' = last := Nat.count_injective hends.isLast h hends.ended_eq
    exact hends
  · -- The source is done before that many operations, so the machine has halted.
    push Not at hlive
    obtain ⟨i, hi, hdone⟩ := hlive
    obtain ⟨first, hfirst, hmin⟩ := exists_first_done ⟨i, hdone⟩
    obtain ⟨last', hends⟩ : ∃ last', Ends program trace source block input first last' :=
      exists_ends hcode hblock first hmin
    have hle : first ≤ i := Nat.le_of_not_lt fun hlt => hmin i hlt hdone
    have hcount : (unlimited program trace).ended (source.map command) (.start .empty input) last' <
        (unlimited program trace).ended (source.map command) (.start .empty input) last := by
      rw [hends.ended_eq]
      exact Nat.lt_of_le_of_lt hle hi
    unfold ended at hcount
    obtain ⟨-, -, -, -, hnot⟩ := hends.completed hcode hfirst
    exact absurd h (hnot last (Nat.lt_of_count_lt_count hcount))

/-- However far a run and its source have come, there is a later point at which the tape holds the
row of the source. -/
theorem exists_shows (hcode : program.code = compile (source.map command))
    (hblock : block.code = source)
    (time count : Nat) :
    ∃ time' ≥ time, ∃ count' ≥ count,
      ((unlimited program trace).step^[time'] (.start .empty input)).store.Shows
        (Chains.stage block input count').2 := by
  by_cases hlive : ∀ i < max time count, (Chains.stage block input i).1 ≠ .done
  · obtain ⟨last, -, hended, place, store, steps, harrives, -, hshows⟩ :
        ∃ last, Ends program trace source block input (max time count) last :=
      exists_ends hcode hblock _ hlive
    have hle := ended_le (unlimited program trace) (source.map command) (.start .empty input) last
    refine ⟨last + 1, by omega, max time count, Nat.le_max_right _ _, ?_⟩
    rwa [harrives]
  · push Not at hlive
    obtain ⟨i, -, hdone⟩ := hlive
    obtain ⟨first, hfirst, hmin⟩ := exists_first_done ⟨i, hdone⟩
    obtain ⟨last, hends⟩ : ∃ last, Ends program trace source block input first last :=
      exists_ends hcode hblock first hmin
    obtain ⟨final, rfl, hhalt, hshows, -⟩ := hends.completed hcode hfirst
    refine ⟨max time (last + 2), Nat.le_max_left _ _, max count first, Nat.le_max_left _ _, ?_⟩
    rw [iterate_step_eq_of_le (Nat.le_max_right _ _) (by rw [hhalt]; rfl), Chains.stage,
      Block.advance_eq_of_le hfirst (Nat.le_max_right _ _)]
    exact hshows

/-- After every step there is a later point at which the tape holds the row that the number of
operations ended before the step tells. -/
theorem exists_shows_ended (hcode : program.code = compile (source.map command))
    (hblock : block.code = source) (trace : Bool) (input : List UInt8) (time : Nat) :
    ∃ time' > time, ((unlimited program trace).step^[time'] (.start .empty input)).store.Shows
      (Chains.stage block input ((unlimited program trace).ended (source.map command)
        (.start .empty input) time)).2 := by
  generalize hcount :
    (unlimited program trace).ended (source.map command) (.start .empty input) time = count
  by_cases hlive : ∀ i < count, (Chains.stage block input i).1 ≠ .done
  · obtain ⟨last, hlast, hended, place, store, steps, harrives, -, hshows⟩ :
        ∃ last, Ends program trace source block input count last :=
      exists_ends hcode hblock count hlive
    refine ⟨last + 1, ?_, by rwa [harrives]⟩
    -- The operation that ends with `last` has not ended before the step.
    by_contra hle
    have hmono := Nat.count_monotone (fun i => IsLast (source.map command)
      ((unlimited program trace).step^[i] (.start .empty input)).position) (Nat.le_of_not_lt hle)
    change (unlimited program trace).ended _ _ (last + 1) ≤ (unlimited program trace).ended _ _ time
      at hmono
    rw [ended_succ hlast] at hmono
    omega
  · push Not at hlive
    obtain ⟨i, hi, hdone⟩ := hlive
    obtain ⟨first, hfirst, hmin⟩ := exists_first_done ⟨i, hdone⟩
    obtain ⟨last, hends⟩ : ∃ last, Ends program trace source block input first last :=
      exists_ends hcode hblock first hmin
    obtain ⟨final, rfl, hhalt, hshows, -⟩ := hends.completed hcode hfirst
    have hle : first ≤ count := (Nat.le_of_not_lt fun hlt => hmin i hlt hdone).trans hi.le
    refine ⟨max (time + 1) (last + 2), Nat.lt_of_succ_le (Nat.le_max_left _ _), ?_⟩
    rw [iterate_step_eq_of_le (Nat.le_max_right _ _) (by rw [hhalt]; rfl), Chains.stage,
      Block.advance_eq_of_le hfirst hle]
    exact hshows

theorem exists_halts_iff (hcode : program.code = compile (source.map command))
    (hblock : block.code = source) :
    (∃ final, (unlimited program trace).Halts (.start .empty input) final) ↔
      ∃ count, (Chains.stage block input count).1 = .done := by
  constructor
  · rintro ⟨final, hhalts⟩
    obtain ⟨⟨fuel, rfl⟩, hhalt⟩ := halts_iff.1 hhalts
    -- If the source went on for ever, an operation would end after any number of steps.
    by_contra hlive
    obtain ⟨last, -, hended, place, store, steps, harrives, -, -⟩ :
        ∃ last, Ends program trace source block input fuel last :=
      exists_ends hcode hblock fuel fun i _ hdone => hlive ⟨i, hdone⟩
    have hle := ended_le (unlimited program trace) (source.map command) (.start .empty input) last
    rw [hended] at hle
    rw [iterate_step_eq_of_le (Nat.le_succ_of_le hle) hhalt] at harrives
    rw [harrives] at hhalt
    cases hhalt
  · intro hdone
    obtain ⟨first, hfirst, hmin⟩ := exists_first_done hdone
    obtain ⟨last, hends⟩ := exists_ends hcode hblock first hmin
    obtain ⟨final, hfinal, hhalt, -⟩ := hends.completed hcode hfirst
    exact ⟨final, halts_iff.2 ⟨⟨_, hfinal⟩, by rw [hhalt]; rfl⟩⟩

/-- The store of a completed run. -/
theorem Halts.shows (hcode : program.code = compile (source.map command))
    (hblock : block.code = source)
    {final : State} (h : (unlimited program trace).Halts (.start .empty input) final) {count : Nat}
    (hdone : (Chains.stage block input count).1 = .done) :
    final.halt? = some .completed ∧ final.store.Shows (Chains.stage block input count).2 := by
  obtain ⟨first, hfirst, hmin⟩ := exists_first_done ⟨count, hdone⟩
  obtain ⟨last, hends⟩ : ∃ last, Ends program trace source block input first last :=
    exists_ends hcode hblock first hmin
  obtain ⟨final', hfinal, hhalt, hshows, -⟩ := hends.completed hcode hfirst
  have hhalts' : (unlimited program trace).Halts (.start .empty input) final' :=
    halts_iff.2 ⟨⟨_, hfinal⟩, by rw [hhalt]; rfl⟩
  obtain rfl := h.unique hhalts'
  have hle : first ≤ count := Nat.le_of_not_lt fun hlt => hmin count hlt hdone
  rw [Chains.stage, Block.advance_eq_of_le hfirst hle]
  exact ⟨hhalt, hshows⟩

end Machine

end ByteTape
