import ByteTape.Proofs.Contract

/-!
# Reading and writing a number

The codes of `,` and `.` on any tape with a layout. A read takes one byte of the input, or 0 where
none is left, and puts it in place of the active numeral without changing its width. A write shows
the active numeral modulo 256 and changes nothing.
-/

namespace ByteTape

open Machine Operation

namespace Layout.Lists

variable {layout : Layout} {s : Chains} {input : List UInt8}

theorem read (h : layout.Lists s) (hinput : s.console = { input }) :
    (layout.setDigits
      (input.getD 0 0 :: List.replicate (layout.activeNumeral.width - 1) 0)).Lists
        (s.perform .read) := by
  have hload : (s.active.load s.console.read.1).digits =
      input.getD 0 0 :: List.replicate (layout.activeNumeral.width - 1) 0 := by
    rw [Chain.digits_load, hinput, Console.read_eq, ← h.digits_active]
    rfl
  rw [← hload]
  exact h.setDigits (Chain.length_load _ _) _

theorem console_write (h : layout.Lists s) (hinput : s.console = { input }) :
    (s.perform .write).console =
      { input, output := #[UInt8.ofNat layout.activeNumeral.value] } := by
  have hfirst : s.active.first = UInt8.ofNat layout.activeNumeral.value := by
    apply UInt8.toNat_inj.1
    rw [UInt8.toNat_ofNat', Chain.toNat_first, Numeral.value_eq, h.digits_active]
  change s.console.write s.active.first = _
  rw [hinput, hfirst]
  rfl

end Layout.Lists

theorem Chains.console_read {s : Chains} {input : List UInt8} (hinput : s.console = { input }) :
    (s.perform .read).console = { input := input.drop 1, output := #[] } := by
  change s.console.read.2 = _
  rw [hinput, Console.read_eq]

/-- **Reading and writing.** The code of `,` by itself, on a tape with any layout and for any input,
completes without writing. It takes one byte if there is one, and that byte followed by zeros is the
active numeral then. The code of `.` completes without reading, writes one byte, and leaves the tape
as it was. -/
theorem read_and_write_move_one_byte (tape : Tape) (layout : Layout) (h : tape.layout = .ok layout)
    (trace : Bool) (input : List UInt8) :
    let numeral := layout.activeNumeral
    let loaded := layout.setDigits (input.getD 0 0 :: List.replicate (numeral.width - 1) 0)
    (∃ final,
      (command (.act .read)).fragment.CompletesWithout [.act .write] trace tape input final ∧
      final.store.console = { input := input.drop 1, output := #[] } ∧
      final.store.tape.pointer = tape.pointer ∧
      final.store.tape.layout = .ok loaded ∧
      loaded.numerals.map Numeral.width = layout.numerals.map Numeral.width) ∧
    ∃ final byte,
      (command (.act .write)).fragment.CompletesWithout [.act .read] trace tape input final ∧
      byte.toNat = numeral.value % 256 ∧
      final.store.console = { input, output := #[byte] } ∧
      (final.store.tape == tape) = true := by
  intro numeral loaded
  constructor
  · have hsilent : ∀ op ∈ [Opcode.act .write], op ∉ (command (.act .read)).fragment := by
      decide +kernel
    obtain ⟨final, hcompletes, hconsole, hlayout⟩ :=
      (Code.performs_command .read).exists_completes h hsilent
        (fun _ hs hinput => ⟨hs.read hinput, Chains.console_read hinput⟩) trace
    refine ⟨final, hcompletes, hconsole, ?_, hlayout, ?_⟩
    · exact Tape.pointer_eq_of_setDigits h hlayout
    · apply Layout.map_width_setDigits
      have hwidth : 0 < numeral.width := List.length_pos_of_ne_nil (Tape.digits_ne_nil_of_layout h)
      rw [List.length_cons, List.length_replicate]
      exact Nat.sub_add_cancel hwidth
  · have hsilent : ∀ op ∈ [Opcode.act .read], op ∉ (command (.act .write)).fragment := by
      decide +kernel
    obtain ⟨final, hcompletes, hconsole, hlayout⟩ :=
      (Code.performs_command .write).exists_completes h hsilent
        (fun _ hs hinput => ⟨⟨hs.numerals, hs.active⟩, hs.console_write hinput⟩) trace
    exact ⟨final, UInt8.ofNat numeral.value, hcompletes, UInt8.toNat_ofNat', hconsole,
      Tape.beq_of_layout_eq hlayout h⟩

/-- 1543, which is 7 modulo 256, between 5 and 9. -/
theorem read_and_write_two_digits :
    let tape := Tape.ofCells (-4) [1, 0, 5, 0, 0, 0, 1, 0, 7, 1, 0, 6, 0, 0, 0, 1, 0, 9] 2
    (∃ final, (command (.act .read)).fragment.CompletesWithout [.act .write] false tape [65, 66]
        final ∧
      final.store.console = { input := [66], output := #[] } ∧
      ∃ layout, final.store.tape.layout = .ok layout ∧
        layout.numerals = [⟨-4, [5]⟩, ⟨2, [65, 0]⟩, ⟨11, [9]⟩]) ∧
    ∃ final byte, (command (.act .write)).fragment.CompletesWithout [.act .read] false tape [65, 66]
        final ∧
      byte.toNat = 7 ∧ final.store.console = { input := [65, 66], output := #[byte] } ∧
      (final.store.tape == tape) = true := by
  intro tape
  have hlayout : tape.layout = .ok ⟨[⟨-4, [5]⟩, ⟨2, [7, 6]⟩, ⟨11, [9]⟩], 1, by decide⟩ := by
    decide +kernel
  obtain ⟨⟨final, hcompletes, hconsole, -, hloaded, -⟩, hwrite⟩ :=
    read_and_write_move_one_byte _ _ hlayout false [65, 66]
  exact ⟨⟨final, hcompletes, hconsole, _, hloaded, rfl⟩, hwrite⟩

end ByteTape
