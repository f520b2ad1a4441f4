import ByteTape.Proofs.Input
import ByteTape.Proofs.Routine

/-!
# What an operation promises

An operation is run by itself on a tape that has a layout, whichever it is. Its contract says that
the run completes, with which layout, and what was read and written. A layout says what every cell
is (`Tape.beq_of_layout_eq`), so there is nothing else on the tape that a contract could leave open.

Codes that take rows of chains to rows of chains can be put one after another
(`Code.Performs.append`). What such a code does to rows it does to layouts
(`Code.Performs.exists_completes`).
-/

namespace ByteTape

open Block (Takes)
open Machine Operation

/-! ### A tape and its layout -/

namespace Tape

variable {tape a b : Tape} {layout : Layout}

theorem pointer_of_layout (h : tape.layout = .ok layout) :
    tape.pointer = layout.activeNumeral.start :=
  ((Layout.ofView_eq_ok_iff tape.confined_view).1 h).2.2.1.symm

theorem digits_ne_nil_of_layout (h : tape.layout = .ok layout) :
    layout.activeNumeral.digits ≠ [] :=
  ((Layout.ofView_eq_ok_iff tape.confined_view).1 h).1 _ (List.get_mem _ _)

theorem renders_of_layout (h : tape.layout = .ok layout) : Renders layout.numerals tape.get :=
  ((Layout.ofView_eq_ok_iff tape.confined_view).1 h).2.2.2

theorem get_eq_of_numerals_eq {other : Layout} (ha : a.layout = .ok layout)
    (hb : b.layout = .ok other) (h : layout.numerals = other.numerals) (index : Int) :
    a.get index = b.get index := by
  have hrenders := renders_of_layout ha
  rw [h] at hrenders
  exact congrFun (hrenders.unique (renders_of_layout hb)) index

theorem beq_of_layout_eq (ha : a.layout = .ok layout) (hb : b.layout = .ok layout) :
    (a == b) = true := by
  apply Tape.beq_iff.2
  constructor
  · rw [pointer_of_layout ha, pointer_of_layout hb]
  · exact get_eq_of_numerals_eq ha hb rfl

theorem Shows.layout_eq {s : Chains} (h : tape.Shows s) (hlists : layout.Lists s) :
    tape.layout = .ok layout := by
  obtain ⟨other, hother, hlists'⟩ := h.exists_layout
  rw [hother, hlists'.unique hlists]

end Tape

namespace Layout

/-- The layout with these digits in the active numeral, and every numeral where it was. -/
def setDigits (layout : Layout) (digits : List UInt8) : Layout where
  numerals := layout.numerals.set layout.active ⟨layout.activeNumeral.start, digits⟩
  active := layout.active
  active_lt := by
    rw [List.length_set]
    exact layout.active_lt

variable {layout : Layout} {digits : List UInt8}

theorem activeNumeral_setDigits (layout : Layout) (digits : List UInt8) :
    (layout.setDigits digits).activeNumeral = ⟨layout.activeNumeral.start, digits⟩ := by
  simp only [setDigits, activeNumeral, List.get_eq_getElem, List.getElem_set_self]

theorem setDigits_activeNumeral (layout : Layout) :
    layout.setDigits layout.activeNumeral.digits = layout := by
  obtain ⟨numerals, active, hlt⟩ := layout
  simp only [setDigits, Layout.mk.injEq, and_true]
  exact List.set_getElem_self hlt

theorem map_width_setDigits (h : digits.length = layout.activeNumeral.width) :
    (layout.setDigits digits).numerals.map Numeral.width = layout.numerals.map Numeral.width := by
  have hlt : layout.active < (layout.numerals.map Numeral.width).length := by
    rw [List.length_map]
    exact layout.active_lt
  have hwidth : Numeral.width ⟨layout.activeNumeral.start, digits⟩ =
      (layout.numerals.map Numeral.width)[layout.active] := by
    rw [List.getElem_map]
    exact h
  rw [setDigits, List.map_set, hwidth, List.set_getElem_self]

theorem withDigits_eq_setDigits (h : digits.length = layout.activeNumeral.width) :
    layout.withDigits digits = layout.setDigits digits := by
  have hshift :
      Numeral.shift (Triplet.width * (digits.length - layout.activeNumeral.width)) = id := by
    rw [h, Int.sub_self, Int.mul_zero, Numeral.shift_zero]
  simp only [withDigits, setDigits, Layout.mk.injEq, and_true]
  rw [hshift, List.map_id, List.set_eq_take_append_cons_drop, if_pos layout.active_lt]

theorem Lists.digits_active {s : Chains} (h : layout.Lists s) :
    layout.activeNumeral.digits = s.active.digits := congrArg Numeral.digits h.activeNumeral

theorem Lists.setDigits {s : Chains} (h : layout.Lists s) {chain : Chain}
    (hlength : chain.digits.length = s.active.digits.length) (console : Console) :
    (layout.setDigits chain.digits).Lists ⟨s.before, chain, s.after, s.origin, console⟩ := by
  have hwidth : chain.digits.length = layout.activeNumeral.width := by
    rw [hlength, ← h.digits_active]
    rfl
  rw [← withDigits_eq_setDigits hwidth]
  exact ⟨(h.withDigits chain).numerals, (h.withDigits chain).active⟩

end Layout

theorem Tape.pointer_eq_of_setDigits {a b : Tape} {layout : Layout} {digits : List UInt8}
    (ha : a.layout = .ok layout) (hb : b.layout = .ok (layout.setDigits digits)) :
    b.pointer = a.pointer := by
  rw [pointer_of_layout hb, pointer_of_layout ha, Layout.activeNumeral_setDigits]

/-! ### Contracts -/

namespace Code

/-- The code, run by itself on a tape, comes to its end in `final`, and on the way no opcode of
`never` is executed. -/
def CompletesWithout (code : Code) (never : List Opcode) (trace : Bool) (tape : Tape)
    (input : List UInt8) (final : State) : Prop :=
  ∃ program, Program.ofCode code = .ok program ∧
    (unlimited program trace).Halts (.start tape input) final ∧
    final.halt? = some .completed ∧
    ∀ op ∈ never, ∀ count,
      (unlimited program trace).executions op (.start tape input) count = 0

/-- The code takes the cells of every row of chains to those of another row. -/
def Performs (code : Code) (f : Chains → Chains) : Prop :=
  ∃ block : Block, block.code = code ∧ ∀ s : Chains, Takes Band.device block s.band (f s).band

variable {code : Code} {never : List Opcode} {tape : Tape} {input : List UInt8}
  {f g : Chains → Chains}

theorem completesWithout_of_halts {program : Program} {trace : Bool} {final : State}
    (hprogram : Program.ofCode code = .ok program)
    (hfinal : (unlimited program trace).Halts (.start tape input) final)
    (hhalt : final.halt? = some .completed) (hnever : ∀ op ∈ never, op ∉ code) :
    code.CompletesWithout never trace tape input final := by
  refine ⟨program, hprogram, hfinal, hhalt, ?_⟩
  intro op hop count
  apply executions_eq_zero
  change op ∉ program.code
  rw [Program.ofCode_eq_ok_iff.1 hprogram]
  exact hnever op hop

theorem performs_command (action : Action) :
    (command (.act action)).fragment.Performs (Chains.perform action) :=
  exists_block_fragment action

theorem Performs.append {other : Code} (h : code.Performs f) (h' : other.Performs g) :
    Performs (code ++ other) fun s => g (f s) := by
  obtain ⟨block, rfl, htakes⟩ := h
  obtain ⟨block', rfl, htakes'⟩ := h'
  refine ⟨block ++ block', Block.code_append block block', ?_⟩
  intro s
  exact (htakes s).append (htakes' (f s))

/-- What a code does to the rows that a layout lists, it does to a tape with that layout. -/
theorem Performs.exists_completes (h : code.Performs f) {layout layout' : Layout}
    {console : Console} (hlayout : tape.layout = .ok layout) (hnever : ∀ op ∈ never, op ∉ code)
    (heffect : ∀ s : Chains, layout.Lists s → s.console = { input } →
      layout'.Lists (f s) ∧ (f s).console = console) (trace : Bool) :
    ∃ final, code.CompletesWithout never trace tape input final ∧
      final.store.console = console ∧ final.store.tape.layout = .ok layout' := by
  obtain ⟨block, rfl, htakes⟩ := h
  obtain ⟨s, hinput, hlists, hshows⟩ := Tape.exists_shows hlayout { input }
  obtain ⟨hlists', hconsole⟩ := heffect s hlists hinput
  obtain ⟨program, hprogram, final, hfinal, hhalt, hconsole', hshows'⟩ :=
    exists_halts_of_takes_row hshows hinput (htakes s) trace
  refine ⟨final, completesWithout_of_halts hprogram hfinal hhalt hnever, ?_, ?_⟩
  · exact hconsole'.trans hconsole
  · exact hshows'.layout_eq hlists'

/-- The same for a code that leaves the console alone. -/
theorem Performs.exists_completes_silently (h : code.Performs f) {layout layout' : Layout}
    (hlayout : tape.layout = .ok layout)
    (hsilent : ∀ op ∈ [Opcode.act .read, .act .write], op ∉ code)
    (hlists : ∀ s : Chains, layout.Lists s → layout'.Lists (f s))
    (hconsole : ∀ s : Chains, (f s).console = s.console) (trace : Bool) (input : List UInt8) :
    ∃ final, code.CompletesWithout [.act .read, .act .write] trace tape input final ∧
      final.store.console = { input, output := #[] } ∧
      final.store.tape.layout = .ok layout' := by
  apply h.exists_completes hlayout hsilent
  intro s hs hinput
  exact ⟨hlists s hs, (hconsole s).trans hinput⟩

end Code

end ByteTape
