import ByteTape.Proofs.Decode
import ByteTape.Proofs.Representation
import ByteTape.Proofs.Source
import ByteTape.Proofs.Stages

/-!
# Assembled programs

An assembled program works on bytes as its source works on counters. It halts on the same inputs,
with the same output, and its tape has a layout that lists the numbers at the positions the cursor
has been at. At every end of a command on the way there is such a layout too, and each chain has the
digits of the largest number it ever held, no more and no fewer.
-/

namespace ByteTape

open Operation

theorem Store.Shows.exists_layout_of_represents {store : Store} {s : Chains} {t : Counters}
    {peak : Int → Nat} (h : store.Shows s) (hrepresents : Represents s t peak) :
    ∃ layout : Layout, store.tape.layout = .ok layout ∧
      layout.numerals.map Numeral.value = t.values ∧
      layout.numerals.map Numeral.width =
        t.visited.indices.map (fun position => Numeral.digitCount (peak position)) ∧
      t.visited.low + layout.active = t.cursor := by
  obtain ⟨layout, hlayout, hnumerals, hactive⟩ := h.exists_layout
  have hdigits : layout.numerals.map Numeral.digits = s.row.map Chain.digits := by
    rw [hnumerals, Chain.map_digits_placed]
  refine ⟨layout, hlayout, ?_, ?_, ?_⟩
  · calc layout.numerals.map Numeral.value
        = (layout.numerals.map Numeral.digits).map digitsValue := by
          rw [List.map_map]
          exact List.map_congr_left fun numeral _ => numeral.value_eq
      _ = s.row.map (digitsValue ∘ Chain.digits) := by rw [hdigits, List.map_map]
      _ = t.values := hrepresents.map_row fun position chain hholds => hholds.value_eq
  · calc layout.numerals.map Numeral.width
        = (layout.numerals.map Numeral.digits).map List.length := by
          rw [List.map_map]
          rfl
      _ = s.row.map (List.length ∘ Chain.digits) := by rw [hdigits, List.map_map]
      _ = _ := hrepresents.map_row fun position chain hholds => hholds.length_eq
  · rw [hactive, hrepresents.low]
    omega

theorem Operation.exists_program (block : Block) :
    ∃ program, Program.ofCode (compile (block.code.map command)) = .ok program := by
  apply Program.exists_ofCode_iff_nested.2
  apply nested_compile_iff.2
  apply nested_map_iff.2
  exact Code.nested_iff_exists_block.2 ⟨block, rfl⟩

theorem exists_assemble_iff {text : String} :
    (∃ assembly, assemble text = .ok assembly) ↔
      ∃ block : Block, block.code = Code.ofString text := by
  constructor
  · rintro ⟨assembly, hassembly⟩
    exact (assemble_eq_ok hassembly).1
  · rintro ⟨block, hblock⟩
    obtain ⟨program, hprogram⟩ := exists_program block
    rw [hblock] at hprogram
    refine ⟨⟨(Code.ofString text).map command, program⟩, ?_⟩
    have hoperations := Source.operations_eq_ok_iff.2 ⟨⟨block, hblock⟩, rfl⟩
    simp only [assemble, hoperations, bind, Except.bind, hprogram]

/-! ### Whole runs -/

/-- The program does from a blank tape what the block does on counters that are all 0. -/
structure Program.Implements (program : Program) (block : Block) : Prop where
  halts_iff : ∀ (trace : Bool) (input : List UInt8),
    (∃ final, (Machine.unlimited program trace).Halts (.start .empty input) final) ↔
      ∃ cost t, block.Evaluates Counters.device (.start input) cost t
  agrees : ∀ (trace : Bool) (input : List UInt8) (final : Machine.State) (cost : Nat)
      (t : Counters),
    (Machine.unlimited program trace).Halts (.start .empty input) final →
    block.Evaluates Counters.device (.start input) cost t →
      final.halt? = some .completed ∧ final.store.console = ⟨t.input, t.output.toArray⟩ ∧
      (∃ layout : Layout, final.store.tape.layout = .ok layout ∧
        layout.numerals.map Numeral.value = t.values ∧ t.visited.low + layout.active = t.cursor) ∧
      ∀ position, position ∈ t.visited.indices ↔
        ∃ count, (Counters.stage block input count).2.cursor = position

theorem implements_of_code {program : Program} {block : Block}
    (hcode : program.code = compile (block.code.map command)) : program.Implements block where
  halts_iff trace input := by
    rw [Machine.exists_halts_iff hcode rfl]
    constructor
    · rintro ⟨count, hdone⟩
      rw [(represents_stage block input count).1] at hdone
      obtain ⟨cost, heval⟩ := Counters.exists_evaluates_iff.2 ⟨count, Prod.ext hdone rfl⟩
      exact ⟨cost, _, heval⟩
    · rintro ⟨cost, t, heval⟩
      obtain ⟨count, hcount⟩ := Counters.exists_evaluates_iff.1 ⟨cost, heval⟩
      exact ⟨count, by rw [(represents_stage block input count).1, hcount]⟩
  agrees trace input final cost t hhalts heval := by
    obtain ⟨count, hcount⟩ := Counters.exists_evaluates_iff.1 ⟨cost, heval⟩
    obtain ⟨hblock, hrepresents⟩ := represents_stage block input count
    have hvisited := Counters.mem_visited_of_done (congrArg Prod.fst hcount)
    rw [hcount] at hblock hrepresents hvisited
    obtain ⟨hcompleted, hshows⟩ := Machine.Halts.shows hcode rfl hhalts hblock
    obtain ⟨layout, hlayout, hvalues, -, hactive⟩ := hshows.exists_layout_of_represents hrepresents
    have hconsole : final.store.console = ⟨t.input, t.output.toArray⟩ := by
      rw [← hrepresents.console]
      exact congrArg Band.console hshows.2
    exact ⟨hcompleted, hconsole, ⟨layout, hlayout, hvalues, hactive⟩, hvisited⟩

/-- Source texts whose loops nest are assembled, and every assembled program does what its source
says; so does the program of any commands whose loops nest. -/
theorem assembled_implements_source :
    (∀ text, (∃ assembly, assemble text = .ok assembly) ↔
      ∃ block : Block, block.code = Code.ofString text) ∧
    (∀ text assembly, assemble text = .ok assembly →
      ∃ block : Block, block.code = Code.ofString text ∧ assembly.program.Implements block) ∧
    ∀ block : Block, ∃ program, Program.ofCode (compile (block.code.map command)) = .ok program ∧
      program.Implements block := by
  refine ⟨fun text => exists_assemble_iff, fun text assembly hassembly => ?_, fun block => ?_⟩
  · obtain ⟨⟨block, hblock⟩, hoperations, hcode⟩ := assemble_eq_ok hassembly
    rw [hoperations, ← hblock] at hcode
    exact ⟨block, hblock, implements_of_code hcode⟩
  · obtain ⟨program, hprogram⟩ := exists_program block
    exact ⟨program, hprogram, implements_of_code (Program.ofCode_eq_ok_iff.1 hprogram)⟩

/-! ### Ends of commands -/

/-- The most digits that the number at a position took within `count` steps. -/
def Counters.highWater (block : Block) (input : List UInt8) (count : Nat) (position : Int) : Nat :=
  Numeral.digitCount (peak block input count position)

theorem Counters.highWater_succ (block : Block) (input : List UInt8) (count : Nat)
    (position : Int) :
    highWater block input (count + 1) position = max (highWater block input count position)
      (Numeral.digitCount ((stage block input (count + 1)).2.value position)) := by
  rw [highWater, peak_succ, Numeral.digitCount_mono.map_max, highWater]

/-- The tape after `count` steps of a block: its chains denote the counters, and are as wide as they
ever had to be. -/
def Tape.AtHighWater (tape : Tape) (block : Block) (input : List UInt8) (count : Nat) : Prop :=
  ∃ layout : Layout, tape.layout = .ok layout ∧
    layout.numerals.map Numeral.value = (Counters.stage block input count).2.values ∧
    layout.numerals.map Numeral.width =
      (Counters.stage block input count).2.visited.indices.map
        (Counters.highWater block input count) ∧
    (Counters.stage block input count).2.visited.low + layout.active =
      (Counters.stage block input count).2.cursor

theorem Store.Shows.atHighWater {store : Store} {block : Block} {input : List UInt8} {count : Nat}
    (h : store.Shows (Chains.stage block input count).2) :
    store.tape.AtHighWater block input count :=
  h.exists_layout_of_represents (represents_stage block input count).2

/-- Widths are exact at every end of an operation and when the run is over. Every step of the source
has an end of an operation of its own, so nothing is left out between them; and a width grows only
by the number that needs it. -/
theorem widths_are_high_water_marks :
    (∀ text assembly, assemble text = .ok assembly →
      ∃ block : Block, block.code = Code.ofString text ∧ ∀ (trace : Bool) (input : List UInt8),
        let machine := Machine.unlimited assembly.program trace
        (∀ last, IsLast assembly.operations (machine.step^[last] (.start .empty input)).position →
          (machine.step^[last + 1] (.start .empty input)).store.tape.AtHighWater block input
            (machine.ended assembly.operations (.start .empty input) last)) ∧
        (∀ count, (∀ i < count, (Counters.stage block input i).1 ≠ .done) →
          ∃ last, IsLast assembly.operations (machine.step^[last] (.start .empty input)).position ∧
            machine.ended assembly.operations (.start .empty input) last = count) ∧
        ∀ final, machine.Halts (.start .empty input) final →
          ∃ count, (Counters.stage block input count).1 = .done ∧
            final.store.tape.AtHighWater block input count) ∧
    ∀ (block : Block) (input : List UInt8) (count : Nat) (position : Int),
      Counters.highWater block input (count + 1) position =
        max (Counters.highWater block input count position)
          (Numeral.digitCount ((Counters.stage block input (count + 1)).2.value position)) := by
  refine ⟨fun text assembly hassembly => ?_, Counters.highWater_succ⟩
  obtain ⟨⟨block, hblock⟩, hoperations, hcode⟩ := assemble_eq_ok hassembly
  rw [hoperations] at hcode ⊢
  refine ⟨block, hblock, fun trace input => ⟨fun last hlast => ?_, fun count hlive => ?_, ?_⟩⟩
  · obtain ⟨-, -, place, store, steps, harrives, -, hshows⟩ :=
      Machine.ends_of_isLast hcode hblock hlast
    rw [harrives]
    exact hshows.atHighWater
  · have hlive' : ∀ i < count, (Chains.stage block input i).1 ≠ .done := by
      intro i hi
      rw [(represents_stage block input i).1]
      exact hlive i hi
    obtain ⟨last, hends⟩ := Machine.exists_ends hcode hblock count hlive'
    exact ⟨last, hends.isLast, hends.ended_eq⟩
  · intro final hhalts
    obtain ⟨count, hdone⟩ := (Machine.exists_halts_iff hcode hblock).1 ⟨final, hhalts⟩
    refine ⟨count, ?_, (hhalts.shows hcode hblock hdone).2.atHighWater⟩
    rwa [← (represents_stage block input count).1]

end ByteTape
