import ByteTape.Assembly
import ByteTape.Proofs.Chains
import ByteTape.Proofs.Minify

/-!
# The code of commands

What the operations do holds of their minified code too. The commands of a loop are an exception, as
their code has an open bracket; it is the nonzero test with a few opcodes more.
-/

namespace ByteTape

open Block (Takes Evaluates)

theorem Band.lowest_perform_le (action : Action) (s : Band) :
    (s.perform action).lowest ≤ s.lowest := by
  obtain ⟨behind, ahead, lowest, margin, console⟩ := s
  cases action with
  | inc | dec | right | read | write => exact Int.le_refl _
  | left =>
    cases margin with
    | zero => exact Int.sub_le_self _ (by decide)
    | succ margin => exact Int.le_refl _

theorem Block.Simplifies.takes {a b : Block} (h : a.Simplifies b) {s t : Band}
    (htakes : Takes Band.device a s t) (hlowest : s.lowest ≤ t.lowest) :
    Takes Band.device b s t := by
  obtain ⟨cost, heval⟩ := htakes
  obtain ⟨cost', t', -, heval', habove⟩ := h.forward (Band.Above.refl s) heval
  have hle : t'.lowest ≤ s.lowest :=
    heval'.invariant (P := fun u => u.lowest ≤ s.lowest)
      (fun action u hu => (Band.lowest_perform_le action u).trans hu) (Int.le_refl _)
  rw [← habove.eq_of_le (hle.trans hlowest)]
  exact ⟨cost', heval'⟩

theorem Store.band_ofTape_empty (input : List UInt8) :
    (Store.ofTape .empty input).band = ⟨blank, blank, 0, 0, { input }⟩ := by
  refine Band.ext (funext fun n => ?_) (funext fun n => ?_) rfl rfl rfl
  · exact Tape.get_empty _
  · exact Tape.get_empty (0 + n)

namespace Operation

theorem exists_getLast_fragment (action : Action) :
    ∃ last, (command (.act action)).fragment.getLast? = some (.act last) := by
  cases action with
  | left | right => exact ⟨.inc, by decide +kernel⟩
  | inc | dec => exact ⟨.right, by decide +kernel⟩
  | read | write => exact ⟨.left, by decide +kernel⟩

theorem exists_block_fragment (action : Action) :
    ∃ block : Block, block.code = (command (.act action)).fragment ∧
      ∀ s : Chains, Takes Band.device block s.band (s.perform action).band := by
  by_cases hleft : action = .left
  · -- Nothing cancels here, which matters because the code goes further left than before.
    subst hleft
    exact ⟨navigateLeft, rfl, takes_command .left⟩
  · have hcode : (actionBlock action).code = (command (.act action)).body := by
      cases action <;> rfl
    obtain ⟨block, hblock, hsimplifies⟩ := (actionBlock action).exists_minify
    refine ⟨block, by rw [hblock, hcode, fragment], fun s => ?_⟩
    refine hsimplifies.takes (takes_command action s) (le_of_eq ?_)
    obtain ⟨before, active, after, origin, console⟩ := s
    cases action with
    | inc | dec | read | write => rfl
    | left => exact absurd rfl hleft
    | right => cases after <;> rfl

/-- The code of a command that performs an action ends with an action outside its loops. -/
theorem exists_fragment_act (action : Action) :
    ∃ (front : Block) (last : Action),
      (command (.act action)).fragment = front.code ++ [.act last] ∧
        ∀ s : Chains,
          Takes Band.device (front ++ .act last .done) s.band (s.perform action).band := by
  obtain ⟨last, hlast⟩ := exists_getLast_fragment action
  obtain ⟨code, hcode⟩ := List.getLast?_eq_some_iff.1 hlast
  obtain ⟨block, hblock, htakes⟩ := exists_block_fragment action
  obtain ⟨front, rfl, rfl⟩ := Code.exists_block_of_append_act (hblock.trans hcode)
  exact ⟨front, last, hcode, htakes⟩

theorem exists_fragment_nonzeroTest :
    ∃ block : Block, block.code = nonzeroTest.fragment ∧
      ∀ s : Chains, Takes Band.device block s.band (testedBand s) := by
  obtain ⟨block, hblock, hsimplifies⟩ := nonzeroBlock.exists_minify
  exact ⟨block, hblock, fun s => hsimplifies.takes (takes_nonzeroTest s) (Int.le_refl _)⟩

theorem fragment_loopBegin :
    (command .loopBegin).fragment =
      nonzeroTest.fragment ++ [.act .right, .loopBegin, .act .dec, .act .left] := by
  decide +kernel

theorem fragment_loopEnd :
    (command .loopEnd).fragment = nonzeroTest.fragment ++ [.act .right, .loopEnd, .act .left] := by
  decide +kernel

theorem fragment_preamble : preamble.fragment = preambleBlock.code := by
  decide +kernel

open scoped Stream' in
theorem takes_preamble (input : List UInt8) :
    Takes Band.device (Phrase.go preambleMargin ++ .act .inc .done) (Store.ofTape .empty input).band
      (Chains.start input).band := by
  have hahead : Chains.ahead .zero [] = 1 :: blank := by
    have hcells : Chains.ahead .zero [] = 1 :: 0 :: 0 :: 0 :: 0 :: 0 :: blank := rfl
    rw [hcells, three_blank_eq, blank_eq, blank_eq]
  have hmove : Takes Band.device (Phrase.go preambleMargin ++ .act .inc .done)
      ⟨blank, blank, 0, 0, { input }⟩ ⟨0 :: 0 :: 0 :: blank, 1 :: blank, 0, 3, { input }⟩ :=
    .straight rfl
  rw [three_blank_eq, ← hahead] at hmove
  rw [Store.band_ofTape_empty]
  exact hmove

end Operation

end ByteTape
