import ByteTape.Proofs.Contract
import ByteTape.Proofs.Minified

/-!
# Testing for zero and taking one away

The nonzero test by itself, on any tape with a layout: the scratch cell of the first digit becomes 1
if some digit is not 0, and no other cell changes. The code of `-` goes on from there. The borrow
starts only if the number is not 0, so it never leaves the chain, and a chain keeps its width.
-/

namespace ByteTape

open Machine Operation

/-! ### The nonzero test -/

theorem Store.band_set (s : Store) (place : Nat) (value : UInt8) :
    band ⟨s.tape.set (s.tape.pointer + place) value, s.console, s.lowest⟩ =
      { s.band with ahead := fun n => if n = place then value else s.band.ahead n } := by
  apply Band.ext
  · funext n
    simp only [band, Tape.pointer_set, Tape.get_set]
    rw [if_neg (by omega)]
  · funext n
    simp only [band, Tape.pointer_set, Tape.get_set, Int.add_right_inj, Int.natCast_inj]
  · rfl
  · simp only [band, Tape.pointer_set]
  · rfl

theorem Operation.testedBand_eq (s : Chains) :
    testedBand s = { s.band with
      ahead := fun n => if n = 1 then (if s.active.isZero then 0 else 1) else s.band.ahead n } := by
  apply Band.ext
  · rfl
  · funext n
    rcases n with _ | _ | n
    · rfl
    · rfl
    · rfl
  · rfl
  · rfl
  · rfl

/-- The band after the test is that of the tape with one cell set. -/
theorem Tape.Shows.band_tested {tape : Tape} {s : Chains} (h : tape.Shows s) :
    Store.band ⟨tape.set (tape.pointer + 1) (if s.active.isZero then 0 else 1), s.console,
      s.origin - 3⟩ = testedBand s := by
  rw [testedBand_eq, ← h.2]
  exact Store.band_set ⟨tape, s.console, s.origin - 3⟩ 1 _

theorem exists_completes_nonzeroTest {tape : Tape} {layout : Layout}
    (h : tape.layout = .ok layout) (trace : Bool) (input : List UInt8) :
    ∃ final,
      nonzeroTest.fragment.CompletesWithout [.act .read, .act .write] trace tape input final ∧
      final.store.console = { input, output := #[] } ∧
      (final.store.tape ==
        tape.set (tape.pointer + 1) (if layout.activeNumeral.isZero then 0 else 1)) = true := by
  obtain ⟨s, hinput, hlists, hshows⟩ := Tape.exists_shows h { input }
  obtain ⟨block, hblock, htakes⟩ := exists_fragment_nonzeroTest
  obtain ⟨program, hprogram, final, store, hfinal, hhalt, hlowest, hband, htape, hconsole⟩ :=
    exists_halts_of_takes hshows hinput (htakes s) trace
  rw [hblock] at hprogram
  have hsilent : ∀ op ∈ [Opcode.act .read, .act .write], op ∉ nonzeroTest.fragment := by
    decide +kernel
  refine ⟨final, Code.completesWithout_of_halts hprogram hfinal hhalt hsilent, ?_, ?_⟩
  · rw [hconsole, ← hinput]
    exact congrArg Band.console hband
  · have hzero : layout.activeNumeral.isZero = s.active.isZero := by
      rw [hlists.activeNumeral]
      rfl
    have habove : Band.Above (Store.band ⟨tape.set (tape.pointer + 1)
        (if s.active.isZero then 0 else 1), s.console, s.origin - 3⟩) store.band := by
      rw [hshows.band_tested, hband]
      exact Band.Above.refl _
    rw [htape, hzero]
    apply habove.beq_tape _ hlowest
    rw [Tape.pointer_set]
    exact hshows.1

/-- **The nonzero test.** On a tape with any layout it completes without reading or writing, with
the pointer and every cell as before except for the one after the pointer. That is 1 if some digit of
the active numeral is not 0, and 0 if all are. -/
theorem nonzeroTest_sets_scratch (tape : Tape) (layout : Layout) (h : tape.layout = .ok layout)
    (trace : Bool) (input : List UInt8) :
    let numeral := layout.activeNumeral
    ∃ final,
      nonzeroTest.fragment.CompletesWithout [.act .read, .act .write] trace tape input final ∧
      final.store.console = { input, output := #[] } ∧
      final.store.tape.pointer = tape.pointer ∧
      (∀ index, index ≠ tape.pointer + 1 → final.store.tape.get index = tape.get index) ∧
      ((∃ digit ∈ numeral.digits, digit ≠ 0) → final.store.tape.get (tape.pointer + 1) = 1) ∧
      ((∀ digit ∈ numeral.digits, digit = 0) → final.store.tape.get (tape.pointer + 1) = 0) := by
  intro numeral
  obtain ⟨final, hcompletes, hconsole, hsame⟩ := exists_completes_nonzeroTest h trace input
  obtain ⟨hpointer, hcells⟩ := Tape.beq_iff.1 hsame
  rw [Tape.pointer_set] at hpointer
  have hiff : numeral.isZero = true ↔ ∀ digit ∈ numeral.digits, digit = 0 := by
    rw [Numeral.isZero, List.all_eq_true]
    simp only [beq_iff_eq]
  refine ⟨final, hcompletes, hconsole, hpointer, ?_, ?_, ?_⟩
  · intro index hindex
    rw [hcells, Tape.get_set, if_neg hindex]
  · rintro ⟨digit, hmem, hdigit⟩
    have hzero : ¬numeral.isZero = true := fun hzero => hdigit (hiff.1 hzero digit hmem)
    rw [hcells, Tape.get_set, if_pos rfl, if_neg hzero]
  · intro hzeros
    rw [hcells, Tape.get_set, if_pos rfl, if_pos (hiff.2 hzeros)]

/-- 256, whose first digit is 0, with a neighbour on either side. -/
theorem nonzeroTest_finds_high_digit :
    ∃ final, nonzeroTest.fragment.CompletesWithout [.act .read, .act .write] false
        (Tape.ofCells (-4) [1, 0, 0, 0, 0, 0, 1, 0, 0, 1, 0, 1, 0, 0, 0, 1, 0, 9] 2) [65] final ∧
      final.store.console = { input := [65], output := #[] } ∧
      final.store.tape.pointer = 2 ∧ final.store.tape.get 3 = 1 ∧ final.store.tape.get 4 = 0 ∧
      final.store.tape.get 6 = 0 := by
  have hlayout :
      (Tape.ofCells (-4) [1, 0, 0, 0, 0, 0, 1, 0, 0, 1, 0, 1, 0, 0, 0, 1, 0, 9] 2).layout =
        .ok ⟨[⟨-4, [0]⟩, ⟨2, [0, 1]⟩, ⟨11, [9]⟩], 1, by decide⟩ := by
    decide +kernel
  obtain ⟨final, hcompletes, hconsole, hpointer, hcells, hnonzero, -⟩ :=
    nonzeroTest_sets_scratch _ _ hlayout false [65]
  refine ⟨final, hcompletes, hconsole, hpointer, hnonzero ⟨1, by decide, by decide⟩, ?_, ?_⟩
  · rw [hcells 4 (by decide)]
    decide +kernel
  · rw [hcells 6 (by decide)]
    decide +kernel

/-! ### Taking one away -/

theorem Layout.Lists.dec {layout : Layout} {s : Chains} (h : layout.Lists s) :
    (layout.setDigits (lowered layout.activeNumeral.digits)).Lists (s.perform .dec) := by
  rw [h.digits_active, ← Chain.digits_lowered]
  apply h.setDigits
  rw [Chain.digits_lowered, length_lowered]

/-- **Taking one away.** The code of `-` by itself, on a tape with any layout, completes without
reading or writing. The active numeral becomes the number before, in as many digits, and zero stays
zero. All else stays. -/
theorem decrement_subtracts_one (tape : Tape) (layout : Layout) (h : tape.layout = .ok layout)
    (trace : Bool) (input : List UInt8) :
    let numeral := layout.activeNumeral
    ∃ final digits,
      (command (.act .dec)).fragment.CompletesWithout [.act .read, .act .write] trace tape input
        final ∧
      final.store.console = { input, output := #[] } ∧
      final.store.tape.pointer = tape.pointer ∧
      final.store.tape.layout = .ok (layout.setDigits digits) ∧
      digits.length = numeral.width ∧ digitsValue digits = numeral.value - 1 ∧
      (numeral.isZero = true → (final.store.tape == tape) = true) ∧
      (layout.setDigits digits).numerals.map Numeral.width =
        layout.numerals.map Numeral.width := by
  intro numeral
  have hsilent : ∀ op ∈ [Opcode.act .read, .act .write], op ∉ (command (.act .dec)).fragment := by
    decide +kernel
  obtain ⟨final, hcompletes, hconsole, hlayout⟩ :=
    (Code.performs_command .dec).exists_completes_silently h hsilent (fun _ hs => hs.dec)
      (fun _ => rfl) trace input
  have hlength : (lowered numeral.digits).length = numeral.width := length_lowered _
  refine ⟨final, lowered numeral.digits, hcompletes, hconsole, ?_, hlayout, hlength,
    digitsValue_lowered _, ?_, Layout.map_width_setDigits hlength⟩
  · exact Tape.pointer_eq_of_setDigits h hlayout
  · intro hzero
    have hsame : lowered numeral.digits = numeral.digits := if_pos hzero
    rw [hsame, Layout.setDigits_activeNumeral] at hlayout
    exact Tape.beq_of_layout_eq hlayout h

/-- 65536 between 7 and 9. The borrow passes two digits 0, and the third one stays although it
becomes 0. -/
theorem decrement_keeps_width :
    ∃ final digits,
      (command (.act .dec)).fragment.CompletesWithout [.act .read, .act .write] false
        (Tape.ofCells (-4) [1, 0, 7, 0, 0, 0, 1, 0, 0, 1, 0, 0, 1, 0, 1, 0, 0, 0, 1, 0, 9] 2) [65]
        final ∧
      final.store.tape.pointer = 2 ∧
      (∃ layout, final.store.tape.layout = .ok layout ∧
        layout.numerals = [⟨-4, [7]⟩, ⟨2, digits⟩, ⟨14, [9]⟩] ∧ layout.active = 1) ∧
      digits.length = 3 ∧ digitsValue digits = 65535 := by
  have hlayout :
      (Tape.ofCells (-4) [1, 0, 7, 0, 0, 0, 1, 0, 0, 1, 0, 0, 1, 0, 1, 0, 0, 0, 1, 0, 9] 2).layout =
        .ok ⟨[⟨-4, [7]⟩, ⟨2, [0, 0, 1]⟩, ⟨14, [9]⟩], 1, by decide⟩ := by
    decide +kernel
  obtain ⟨final, digits, hcompletes, -, hpointer, hlayout', hlength, hvalue, -⟩ :=
    decrement_subtracts_one _ _ hlayout false [65]
  exact ⟨final, digits, hcompletes, hpointer, ⟨_, hlayout', rfl, rfl⟩, hlength, hvalue⟩

end ByteTape
