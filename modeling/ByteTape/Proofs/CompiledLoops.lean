import ByteTape.Proofs.Compiler

/-!
# Loops of compiled operations

Compiled operations nest exactly if the operations do. If they do not, the bracket to blame belongs
to the operation to blame, and an assembled text never gets that far.
-/

namespace ByteTape

namespace Operation

open Opcode (brackets)

theorem unclosed_fragment_iff {place : Nat} :
    brackets.Unclosed (command .loopBegin).fragment place ↔ place = bracketIndex := by
  rw [show (command .loopBegin).fragment = _ from fragment_opening, ← length_test]
  exact Brackets.unclosed_iff nested_test nested_dec_left

theorem unmatched_fragment_iff {place : Nat} :
    brackets.Unmatched (command .loopEnd).fragment place ↔ place = bracketIndex := by
  rw [show (command .loopEnd).fragment = _ from fragment_closing, ← length_test]
  exact Brackets.unmatched_iff nested_test (Code.nested_act .left .nil)

theorem ofCode_compile_of_not_nested {operations : List Operation} (h : ¬loops.Nested operations) :
    (∃ j, IsLeast {j | loops.Unmatched operations j} j ∧
      Program.ofCode (compile operations) =
        .error (.unmatched (bracketPosition operations j))) ∨
    (∀ j, ¬loops.Unmatched operations j) ∧
      ∃ i, IsGreatest {i | loops.Unclosed operations i} i ∧
        Program.ofCode (compile operations) =
          .error (.unclosed (bracketPosition operations i)) := by
  rcases loops.nested_cases operations with hnested | ⟨front, back, rfl, hfront⟩ |
    ⟨front, back, depth, rfl, hback, hfront⟩
  · exact absurd hnested h
  · left
    refine ⟨front.length, Brackets.isLeast_unmatched hfront back, ?_⟩
    rw [compile_closing, bracketPosition_eq]
    exact Program.ofCode_unmatched ((nested_compile_iff.2 hfront).append nested_test) _
  · right
    constructor
    · have hdepth : loops.depth? (front ++ loops.opening :: back) 0 = some (depth + 1) := by
        rw [Brackets.depth?_append, hfront, Option.bind_some, Brackets.depth?_opening,
          hback.depth?_eq]
      exact Brackets.not_unmatched hdepth
    · refine ⟨front.length, Brackets.isGreatest_unclosed front hback, ?_⟩
      rw [compile_opening, bracketPosition_eq]
      have hdepth : brackets.depth? (compile front ++ test) 0 = some depth := by
        rw [Brackets.depth?_append, depth?_compile, hfront, Option.bind_some, nested_test.depth?_eq]
      exact Program.ofCode_unclosed hdepth (nested_dec_left.append (nested_flatMap_iff.2 hback))

end Operation

open Operation

theorem exists_assemble_of_operations {text : String} {operations : List Operation}
    (h : Source.operations text = .ok operations) : ∃ assembly, assemble text = .ok assembly :=
  exists_assemble_iff.2 (Source.operations_eq_ok_iff.1 h).1

theorem assemble_ne_program_fault (text : String) (fault : BracketFault) :
    assemble text ≠ .error (.program fault) := by
  intro h
  cases hoperations : Source.operations text with
  | ok operations =>
    obtain ⟨assembly, hassembly⟩ := exists_assemble_of_operations hoperations
    rw [hassembly] at h
    cases h
  | error reason =>
    -- Reading the source blames a place of the source only.
    rw [assemble, hoperations] at h
    obtain rfl : reason = .program fault := Except.error.inj h
    unfold Source.operations at hoperations
    cases hnest : Source.nest (Source.scan text) [] with
    | ok value => simp [hnest] at hoperations
    | error nestFault => cases nestFault <;> simp [hnest] at hoperations

/-- Any list of operations compiles to a program exactly if its loops nest, and then the loop
brackets of partners are partners; otherwise the fault is the loop bracket of the first operation
that closes nothing or, if there is none, of the last one that is not closed. So a text whose
commands nest is always assembled. -/
theorem compiling_preserves_loops :
    (∀ operations, (∃ program, Program.ofCode (compile operations) = .ok program) ↔
      loops.Nested operations) ∧
    (∀ operations program, Program.ofCode (compile operations) = .ok program →
      (∀ i, operations[i]? = some (command .loopBegin) → ∃ j, loops.Pairs operations i j) ∧
      (∀ j, operations[j]? = some (command .loopEnd) → ∃ i, loops.Pairs operations i j) ∧
      ∀ i j, loops.Pairs operations i j →
        program.opcode? (bracketPosition operations i) = some .loopBegin ∧
        program.opcode? (bracketPosition operations j) = some .loopEnd ∧
        program.partner? (bracketPosition operations i) = some (bracketPosition operations j) ∧
        program.partner? (bracketPosition operations j) = some (bracketPosition operations i)) ∧
    (∀ operations, ¬loops.Nested operations →
      (∃ j, IsLeast {j | loops.Unmatched operations j} j ∧
        Program.ofCode (compile operations) =
          .error (.unmatched (bracketPosition operations j))) ∨
      (∀ j, ¬loops.Unmatched operations j) ∧
        ∃ i, IsGreatest {i | loops.Unclosed operations i} i ∧
          Program.ofCode (compile operations) =
            .error (.unclosed (bracketPosition operations i))) ∧
    (∀ place, Opcode.brackets.Unclosed (command .loopBegin).fragment place ↔
      place = bracketIndex) ∧
    (∀ place, Opcode.brackets.Unmatched (command .loopEnd).fragment place ↔
      place = bracketIndex) ∧
    (∀ text operations, Source.operations text = .ok operations →
      ∃ assembly, assemble text = .ok assembly) ∧
    ∀ text fault, assemble text ≠ .error (.program fault) := by
  refine ⟨fun operations => ?_, fun operations program hprogram => ?_,
    fun operations => ofCode_compile_of_not_nested, fun place => unclosed_fragment_iff,
    fun place => unmatched_fragment_iff, fun text operations => exists_assemble_of_operations,
    assemble_ne_program_fault⟩
  · rw [Program.exists_ofCode_iff_nested, nested_compile_iff]
  · have hnested : loops.Nested operations :=
      nested_compile_iff.1 (Program.exists_ofCode_iff_nested.1 ⟨program, hprogram⟩)
    refine ⟨fun i hi => ?_, fun j hj => ?_, fun i j hpairs => ?_⟩
    · by_contra hnone
      exact hnested.not_unclosed i ⟨hi, fun j hj => hnone ⟨j, hj⟩⟩
    · by_contra hnone
      exact Brackets.not_unmatched (hnested.depth?_eq 0) j ⟨hj, fun i hi => hnone ⟨i, hi⟩⟩
    · have hcompiled := pairs_compile hpairs
      rw [← Program.ofCode_eq_ok_iff.1 hprogram] at hcompiled
      obtain ⟨hopening, hclosing⟩ := hcompiled.getElem?
      obtain ⟨hpartner, hpartner'⟩ := Program.partner_of_pairs hcompiled
      rw [Program.opcode?_eq, Program.opcode?_eq,
        Program.partner?_eq_some (List.getElem?_eq_some_iff.1 hopening).1,
        Program.partner?_eq_some (List.getElem?_eq_some_iff.1 hclosing).1, hpartner, hpartner']
      exact ⟨hopening, hclosing, rfl, rfl⟩

end ByteTape
