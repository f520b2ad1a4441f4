import ByteTape.Proofs.Input
import ByteTape.Proofs.Routine

/-!
# Adding one

The code of `+` on any tape with a layout: the active numeral becomes the next number, and grows by
a digit only if all its digits wrap. Then every numeral on its right moves on by a triplet. All else
stays, and nothing is read or written.
-/

namespace ByteTape

open Operation Machine

/-- All digits are the last one, so that one more wraps them all. -/
def Numeral.isFull (numeral : Numeral) : Bool := numeral.digits.all (· == 255)

/-- The code of `+` by itself, on a tape with any layout. -/
theorem increment_adds_one (tape : Tape) (layout : Layout) (h : tape.layout = .ok layout)
    (trace : Bool) (input : List UInt8) :
    let numeral := layout.activeNumeral
    ∃ program final digits, Program.ofCode (command (.act .inc)).fragment = .ok program ∧
      (unlimited program trace).Halts (.start tape input) final ∧
      final.halt? = some .completed ∧
      (∀ count,
        (unlimited program trace).executions (.act .read) (.start tape input) count = 0) ∧
      final.store.console = { input, output := #[] } ∧
      final.store.tape.pointer = tape.pointer ∧
      final.store.tape.layout = .ok (layout.withDigits digits) ∧
      digitsValue digits = numeral.value + 1 ∧
      (numeral.isFull = false → digits.length = numeral.width) ∧
      (numeral.isFull = true → digits = List.replicate numeral.width 0 ++ [1]) := by
  intro numeral
  obtain ⟨s, hconsole, hlists, hshows⟩ := Tape.exists_shows h { input }
  obtain ⟨program, hprogram, final, hfinal, hhalt, hconsole', hshows'⟩ :=
    exists_halts_command .inc hshows hconsole trace
  have hdigits : numeral.digits = s.active.digits := congrArg Numeral.digits hlists.activeNumeral
  have hlayout : final.store.tape.layout = .ok (layout.withDigits (carried numeral.digits)) := by
    obtain ⟨layout', hlayout', hlists'⟩ := hshows'.exists_layout
    rw [hlayout', hdigits, ← Chain.digits_carry]
    exact congrArg Except.ok (hlists'.unique (hlists.withDigits s.active.carry))
  have hunread : Opcode.act .read ∉ program.code := by
    rw [Program.ofCode_eq_ok_iff.1 hprogram]
    decide +kernel
  refine ⟨program, final, carried numeral.digits, hprogram, hfinal, hhalt,
    fun count => executions_eq_zero hunread _ count, hconsole'.trans hconsole, ?_, hlayout, ?_, ?_,
    ?_⟩
  · exact hshows'.pointer_eq.trans hshows.pointer_eq.symm
  · rw [Numeral.value_eq]
    exact digitsValue_carried numeral.digits
  · intro hfull
    exact length_carried_of_not_all_last hfull
  · intro hfull
    exact carried_of_all_last hfull

/-- 255 between 7 and 9 grows by a digit, and 9 moves on by a triplet. -/
theorem increment_moves_right_neighbour :
    ∃ program final, Program.ofCode (command (.act .inc)).fragment = .ok program ∧
      (unlimited program false).Halts
        (.start (Tape.ofCells (-4) [1, 0, 7, 0, 0, 0, 1, 0, 255, 0, 0, 0, 1, 0, 9] 2) []) final ∧
      final.store.tape.pointer = 2 ∧
      final.store.tape.layout =
        .ok ⟨[⟨-4, [7]⟩, ⟨2, [0, 1]⟩, ⟨11, [9]⟩], 1, by decide⟩ := by
  have hlayout : (Tape.ofCells (-4) [1, 0, 7, 0, 0, 0, 1, 0, 255, 0, 0, 0, 1, 0, 9] 2).layout =
      .ok ⟨[⟨-4, [7]⟩, ⟨2, [255]⟩, ⟨8, [9]⟩], 1, by decide⟩ := by
    decide +kernel
  obtain ⟨program, final, digits, hprogram, hfinal, -, -, -, hpointer, hlayout', -, -, hfull⟩ :=
    increment_adds_one _ _ hlayout false []
  rw [hfull rfl] at hlayout'
  exact ⟨program, final, hprogram, hfinal, hpointer, hlayout'⟩

end ByteTape
