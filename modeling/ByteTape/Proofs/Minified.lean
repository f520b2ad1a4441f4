import ByteTape.Proofs.Link
import ByteTape.Proofs.Minify

/-!
# Minified programs

Minification drops actions only, so it keeps how many loops are open where, and with it the verdict
on the brackets. A program and the program of its minified code then halt on the same tapes and
inputs, and what they leave differs in the number of steps and in how far left the pointer has been,
in favour of the shorter one.
-/

namespace ByteTape

namespace Code

open Opcode (brackets)

theorem Cancels.depth?_eq {code shorter : Code} (h : Cancels code shorter) (depth : Nat) :
    brackets.depth? shorter depth = brackets.depth? code depth := by
  obtain ⟨front, back, op, undo, hpair, rfl, rfl⟩ := h
  obtain ⟨action, action', rfl, rfl, -⟩ :=
    Block.exists_act_of_inverse (Opcode.inverse?_eq_some_iff.2 hpair)
  rw [Brackets.depth?_append, Brackets.depth?_append]
  cases brackets.depth? front depth with
  | none => rfl
  | some final => rw [Option.bind_some, Option.bind_some, depth?_act, depth?_act]

theorem depth?_eq_of_reflTransGen {code shorter : Code}
    (h : Relation.ReflTransGen Cancels code shorter) (depth : Nat) :
    brackets.depth? shorter depth = brackets.depth? code depth := by
  induction h with
  | refl => rfl
  | tail _ hcancels ih => rw [hcancels.depth?_eq, ih]

theorem depth?_minify (code : Code) (depth : Nat) :
    brackets.depth? code.minify depth = brackets.depth? code depth :=
  depth?_eq_of_reflTransGen code.reflTransGen_minify depth

end Code

theorem Band.Above.beq_tape {s t : Store} (h : Band.Above s.band t.band)
    (hs : s.lowest ≤ s.tape.pointer) (ht : t.lowest ≤ t.tape.pointer) :
    (t.tape == s.tape) = true := by
  have hpointer : t.tape.pointer = s.tape.pointer := by
    rw [← Store.pointer_band ht, h.pointer, Store.pointer_band hs]
  exact Tape.beq_iff.2 ⟨hpointer, Store.get_eq_of_band hpointer h.behind h.ahead⟩

namespace Machine

variable {program short : Program} {trace : Bool} {tape : Tape} {input : List UInt8}

theorem exists_blocks_of_minify (hshort : short.code = program.code.minify) :
    ∃ block block' : Block, block.code = program.code ∧ block'.code = short.code ∧
      block.Simplifies block' := by
  obtain ⟨block, hblock⟩ := program.exists_block
  obtain ⟨block', hblock', hsimplifies⟩ := block.exists_minify
  refine ⟨block, block', hblock, ?_, hsimplifies⟩
  rw [hblock', hblock, hshort]

theorem exists_halts_minify_iff (hshort : short.code = program.code.minify) :
    (∃ final, (unlimited short trace).Halts (.start tape input) final) ↔
      ∃ final, (unlimited program trace).Halts (.start tape input) final := by
  obtain ⟨block, block', hblock, hblock', hsimplifies⟩ := exists_blocks_of_minify hshort
  have hlowest : (Store.ofTape tape input).lowest ≤ (Store.ofTape tape input).tape.pointer :=
    Int.le_refl _
  constructor
  · rintro ⟨final, hfinal⟩
    obtain ⟨cost, t, heval, -⟩ := (halts_iff_evaluates hblock').1 hfinal
    obtain ⟨cost', b, hband⟩ :=
      hsimplifies.backward (Band.Above.refl _) (Store.evaluates_band hlowest heval).2
    obtain ⟨u, hu, -⟩ := Store.exists_evaluates_of_band hlowest hband
    exact ⟨_, (halts_iff_evaluates hblock).2 ⟨cost', u, hu, rfl⟩⟩
  · rintro ⟨final, hfinal⟩
    obtain ⟨cost, t, heval, -⟩ := (halts_iff_evaluates hblock).1 hfinal
    obtain ⟨cost', b, -, hband, -⟩ :=
      hsimplifies.forward (Band.Above.refl _) (Store.evaluates_band hlowest heval).2
    obtain ⟨u, hu, -⟩ := Store.exists_evaluates_of_band hlowest hband
    exact ⟨_, (halts_iff_evaluates hblock').2 ⟨cost', u, hu, rfl⟩⟩

/-- `short` has come to its end as `final` has, only sooner and not as far left. -/
structure State.Shortens (final short : State) : Prop where
  completed : final.halt? = some .completed
  completed' : short.halt? = some .completed
  tape : (short.store.tape == final.store.tape) = true
  console : short.store.console = final.store.console
  steps : short.steps ≤ final.steps
  lowest : final.store.lowest ≤ short.store.lowest

theorem shortens_of_halts (hshort : short.code = program.code.minify) {final final' : State}
    (hfinal : (unlimited program trace).Halts (.start tape input) final)
    (hfinal' : (unlimited short trace).Halts (.start tape input) final') :
    final.Shortens final' := by
  obtain ⟨block, block', hblock, hblock', hsimplifies⟩ := exists_blocks_of_minify hshort
  obtain ⟨cost, t, heval, rfl⟩ := (halts_iff_evaluates hblock).1 hfinal
  obtain ⟨cost', t', heval', rfl⟩ := (halts_iff_evaluates hblock').1 hfinal'
  obtain ⟨hlowest, hband⟩ := Store.evaluates_band (Int.le_refl _) heval
  obtain ⟨hlowest', hband'⟩ := Store.evaluates_band (Int.le_refl _) heval'
  obtain ⟨cost'', b, hcost, hshorter, habove⟩ := hsimplifies.forward (Band.Above.refl _) hband
  obtain ⟨rfl, rfl⟩ := hshorter.unique hband'
  exact ⟨rfl, rfl, habove.beq_tape hlowest hlowest', habove.console, hcost, habove.lowest⟩

end Machine

open Machine

/-- **Minification preserves behaviour.** The brackets of a minified code match as those of the code
do, or are at fault in the same way. Run on the same tape and input, its program completes exactly
if the program of the code does, with the same cells under the same pointer, the same output and the
same input left, after no more steps and without having been further left. -/
theorem minification_preserves_behaviour (code : Code) :
    ((∃ program, Program.ofCode code.minify = .ok program) ↔
      ∃ program, Program.ofCode code = .ok program) ∧
    ((∃ position, Program.ofCode code.minify = .error (.unmatched position)) ↔
      ∃ position, Program.ofCode code = .error (.unmatched position)) ∧
    ((∃ position, Program.ofCode code.minify = .error (.unclosed position)) ↔
      ∃ position, Program.ofCode code = .error (.unclosed position)) ∧
    ∀ program short, Program.ofCode code = .ok program → Program.ofCode code.minify = .ok short →
      ∀ (trace : Bool) (tape : Tape) (input : List UInt8),
        ((∃ final, (unlimited short trace).Halts (.start tape input) final) ↔
          ∃ final, (unlimited program trace).Halts (.start tape input) final) ∧
        ∀ final final', (unlimited program trace).Halts (.start tape input) final →
          (unlimited short trace).Halts (.start tape input) final' →
            final.halt? = some .completed ∧ final'.halt? = some .completed ∧
            final'.store.tape.pointer = final.store.tape.pointer ∧
            (∀ index, final'.store.tape.get index = final.store.tape.get index) ∧
            (final'.store.tape == final.store.tape) = true ∧
            final'.store.console.output = final.store.console.output ∧
            final'.store.console.input = final.store.console.input ∧
            final'.steps ≤ final.steps ∧ final.store.lowest ≤ final'.store.lowest := by
  refine ⟨?_, ?_, ?_, ?_⟩
  · rw [Program.exists_ofCode_iff_nested, Program.exists_ofCode_iff_nested, Brackets.nested_iff,
      Brackets.nested_iff, Code.depth?_minify]
  · rw [Program.exists_unmatched_iff, Program.exists_unmatched_iff, Code.depth?_minify]
  · rw [Program.exists_unclosed_iff, Program.exists_unclosed_iff, Code.depth?_minify]
  · intro program short hprogram hshort trace tape input
    have hcode : short.code = program.code.minify := by
      rw [Program.ofCode_eq_ok_iff.1 hshort, Program.ofCode_eq_ok_iff.1 hprogram]
    refine ⟨exists_halts_minify_iff hcode, ?_⟩
    intro final final' hfinal hfinal'
    have h := shortens_of_halts hcode hfinal hfinal'
    obtain ⟨hpointer, hcells⟩ := Tape.beq_iff.1 h.tape
    exact ⟨h.completed, h.completed', hpointer, hcells, h.tape, congrArg Console.output h.console,
      congrArg Console.input h.console, h.steps, h.lowest⟩

end ByteTape
