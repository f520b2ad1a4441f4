import Mathlib.Order.Basic
import ByteTape.Proofs.Fragment
import ByteTape.Proofs.Link

/-!
# Where commands stand in assembled code

Assembled code is the code of one operation after the other. `offset` says where each begins, and a
position is the last one of an operation if the next one begins right after it. The code of an
operation has loops of its own, and the code of a command that opens or closes a loop has one
bracket besides, at `bracketPosition`. That bracket is all that matters from outside: the code opens
and closes as many loops as the operations (`depth?_compile`), and partners stay partners
(`pairs_compile`).
-/

namespace ByteTape

namespace Operation

open Opcode (brackets)

/-- The position behind the code of the preamble and of the first `count` operations. -/
def offset (operations : List Operation) (count : Nat) : Nat :=
  (compile (operations.take count)).length

/-- The last opcode of the preamble or of one of the operations stands here. -/
def IsLast (operations : List Operation) (position : Nat) : Prop :=
  ∃ count ≤ operations.length, position + 1 = offset operations count

instance (operations : List Operation) (position : Nat) : Decidable (IsLast operations position) :=
  inferInstanceAs (Decidable (∃ count ≤ operations.length, position + 1 = offset operations count))

variable {operations segment : List Operation} {count : Nat}

theorem compile_append (front back : List Operation) :
    compile (front ++ back) = compile front ++ back.flatMap fragment := by
  rw [compile, compile, List.flatMap_append, List.append_assoc]

theorem offset_add (h : segment <+: operations.drop count) :
    offset operations (count + segment.length) =
      offset operations count + (segment.flatMap fragment).length := by
  obtain ⟨rest, hrest⟩ := h
  rw [offset, List.take_add, ← hrest, List.take_left, compile_append, List.length_append, offset]

theorem stands_compile (h : segment <+: operations.drop count) :
    Code.Stands (segment.flatMap fragment) (compile operations) (offset operations count) := by
  obtain ⟨rest, hrest⟩ := h
  have hsplit : operations = operations.take count ++ segment ++ rest := by
    rw [List.append_assoc, hrest, List.take_append_drop]
  have hcode := congrArg compile hsplit
  rw [compile_append, compile_append] at hcode
  exact Code.Stands.of_eq hcode

theorem offset_le_offset {count' : Nat} (h : count ≤ count') :
    offset operations count ≤ offset operations count' := by
  obtain ⟨more, rfl⟩ := Nat.exists_eq_add_of_le h
  rw [offset, offset, List.take_add, compile_append, List.length_append]
  exact Nat.le_add_right _ _

theorem offset_zero (operations : List Operation) :
    offset operations 0 = preamble.fragment.length := by
  rw [offset, List.take_zero, compile, List.flatMap_nil, List.append_nil]

theorem offset_length : offset operations operations.length = (compile operations).length := by
  rw [offset, List.take_length]

/-- Between two ends no opcode is last. -/
theorem not_isLast (count : Nat) {position : Nat} (hlow : offset operations count ≤ position)
    (hhigh : position + 1 < offset operations (count + 1)) : ¬IsLast operations position := by
  rintro ⟨other, -, hother⟩
  rcases Nat.lt_or_ge count other with hlt | hge
  · have hle : offset operations (count + 1) ≤ offset operations other := offset_le_offset hlt
    omega
  · have hle : offset operations other ≤ offset operations count := offset_le_offset hge
    omega

theorem not_isLast_of_length_le {position : Nat} (h : (compile operations).length ≤ position) :
    ¬IsLast operations position := by
  rintro ⟨other, hother, hposition⟩
  have hle : offset operations other ≤ offset operations operations.length :=
    offset_le_offset hother
  rw [offset_length] at hle
  omega

/-! ### Commands -/

/-- The code of commands, without a preamble. -/
def expand (source : Code) : Code := (source.map command).flatMap fragment

@[simp]
theorem expand_nil : expand [] = [] := rfl

@[simp]
theorem expand_cons (op : Opcode) (source : Code) :
    expand (op :: source) = (command op).fragment ++ expand source := rfl

@[simp]
theorem expand_append (front back : Code) :
    expand (front ++ back) = expand front ++ expand back := by
  simp only [expand, List.map_append, List.flatMap_append]

variable {source : Code} {place : Nat}

theorem map_command_of_stands {segment : Code} (h : Code.Stands segment source place) :
    segment.map command <+: (source.map command).drop place := by
  rw [← List.map_drop]
  exact h.map command

theorem offset_expand {segment : Code} (h : Code.Stands segment source place) :
    offset (source.map command) (place + segment.length) =
      offset (source.map command) place + (expand segment).length := by
  have hoffset := offset_add (map_command_of_stands h)
  rwa [List.length_map] at hoffset

theorem offset_command {op : Opcode} (h : source[place]? = some op) :
    offset (source.map command) (place + 1) =
      offset (source.map command) place + (command op).fragment.length := by
  have hoffset := offset_expand (.of_getElem? h)
  rwa [expand_cons, expand_nil, List.append_nil] at hoffset

theorem stands_expand {segment : Code} (h : Code.Stands segment source place) :
    Code.Stands (expand segment) (compile (source.map command))
      (offset (source.map command) place) :=
  stands_compile (map_command_of_stands h)

theorem stands_command {op : Opcode} (h : source[place]? = some op) :
    Code.Stands (command op).fragment (compile (source.map command))
      (offset (source.map command) place) := by
  have hstands := stands_expand (.of_getElem? h)
  rwa [expand_cons, expand_nil, List.append_nil] at hstands

theorem isLast_of_offset {count position : Nat} (hcount : count ≤ source.length)
    (h : position + 1 = offset (source.map command) count) : IsLast (source.map command) position :=
  ⟨count, by rwa [List.length_map], h⟩

theorem exists_fragment_concat (op : Opcode) :
    ∃ (front : Code) (last : Action), (command op).fragment = front ++ [.act last] := by
  cases op with
  | act action =>
    obtain ⟨front, last, hfragment, -⟩ := exists_fragment_act action
    exact ⟨front.code, last, hfragment⟩
  | loopBegin =>
    refine ⟨nonzeroTest.fragment ++ [.act .right, .loopBegin, .act .dec], .left, ?_⟩
    rw [fragment_loopBegin, List.append_assoc]
    rfl
  | loopEnd =>
    refine ⟨nonzeroTest.fragment ++ [.act .right, .loopEnd], .left, ?_⟩
    rw [fragment_loopEnd, List.append_assoc]
    rfl

theorem offset_lt_offset {count count' : Nat} (hlt : count < count')
    (hle : count' ≤ source.length) :
    offset (source.map command) count < offset (source.map command) count' := by
  obtain ⟨op, hop⟩ : ∃ op, source[count]? = some op :=
    ⟨_, List.getElem?_eq_getElem (Nat.lt_of_lt_of_le hlt hle)⟩
  obtain ⟨front, last, hfragment⟩ := exists_fragment_concat op
  have hnext := offset_command hop
  have hmono : offset (source.map command) (count + 1) ≤ offset (source.map command) count' :=
    offset_le_offset hlt
  rw [hfragment, List.length_append, List.length_singleton] at hnext
  omega

theorem offset_inj {count count' : Nat} (hcount : count ≤ source.length)
    (hcount' : count' ≤ source.length)
    (h : offset (source.map command) count = offset (source.map command) count') :
    count = count' := by
  rcases Nat.lt_trichotomy count count' with hlt | heq | hgt
  · exact absurd h (offset_lt_offset hlt hcount').ne
  · exact heq
  · exact absurd h (offset_lt_offset hgt hcount).ne'

/-- The last opcode of a command is an action. -/
theorem exists_act_of_isLast {position : Nat} (h : IsLast (source.map command) position) :
    ∃ action, (compile (source.map command))[position]? = some (.act action) := by
  obtain ⟨count, hcount, hposition⟩ := h
  rw [List.length_map] at hcount
  cases count with
  | zero =>
    refine ⟨.inc, ?_⟩
    have hpreamble : preamble.fragment = (Phrase.go preambleMargin).code ++ [.act .inc] := by
      rw [fragment_preamble, preambleBlock, Block.code_append]
      rfl
    have hlength : position = (Phrase.go preambleMargin).code.length := by
      rw [offset_zero, hpreamble, List.length_append] at hposition
      exact Nat.succ.inj hposition
    rw [compile, hpreamble, List.append_assoc, hlength]
    simp
  | succ count =>
    obtain ⟨op, hop⟩ : ∃ op, source[count]? = some op := ⟨_, List.getElem?_eq_getElem hcount⟩
    obtain ⟨front, last, hfragment⟩ := exists_fragment_concat op
    have hstands := stands_command hop
    have hend := offset_command hop
    rw [hfragment] at hstands hend
    rw [List.length_append, List.length_singleton] at hend
    obtain rfl : position = offset (source.map command) count + front.length := by omega
    exact ⟨last, hstands.append.2.cons.1⟩

/-- Where a command that opens or closes a loop has the bracket of the loop. -/
def bracketIndex : Nat := nonzeroTest.fragment.length + 1

/-- The position in compiled code of the loop bracket of the operation at `place`. -/
def bracketPosition (operations : List Operation) (place : Nat) : Nat :=
  offset operations place + bracketIndex

theorem offset_le_bracketPosition (operations : List Operation) (place : Nat) :
    offset operations place ≤ bracketPosition operations place := Nat.le_add_right _ _

/-- The opcodes behind the nonzero test of an opening command. -/
theorem stands_loopBegin (h : source[place]? = some .loopBegin) :
    let bracket := bracketPosition (source.map command) place
    let code := compile (source.map command)
    code[bracket]? = some .loopBegin ∧ code[bracket + 1]? = some (.act .dec) ∧
      code[bracket + 2]? = some (.act .left) ∧
      offset (source.map command) (place + 1) = bracket + 3 := by
  have hstands := stands_command h
  have hend := offset_command h
  rw [fragment_loopBegin] at hstands hend
  obtain ⟨-, hbracket⟩ := hstands.append.2.cons
  obtain ⟨hbracket, hdec⟩ := hbracket.cons
  obtain ⟨hdec, hleft⟩ := hdec.cons
  refine ⟨hbracket, hdec, hleft.cons.1, ?_⟩
  rw [hend, List.length_append, ← Nat.add_assoc]
  rfl

/-- The opcodes behind the nonzero test of a closing command. -/
theorem stands_loopEnd (h : source[place]? = some .loopEnd) :
    let bracket := bracketPosition (source.map command) place
    let code := compile (source.map command)
    code[bracket]? = some .loopEnd ∧ code[bracket + 1]? = some (.act .left) ∧
      offset (source.map command) (place + 1) = bracket + 2 := by
  have hstands := stands_command h
  have hend := offset_command h
  rw [fragment_loopEnd] at hstands hend
  obtain ⟨-, hbracket⟩ := hstands.append.2.cons
  obtain ⟨hbracket, hleft⟩ := hbracket.cons
  refine ⟨hbracket, hleft.cons.1, ?_⟩
  rw [hend, List.length_append, ← Nat.add_assoc]
  rfl

/-! ### Loops -/

/-- Loops of operations are opened and closed by commands. -/
def loops : Brackets Operation := ⟨command .loopBegin, command .loopEnd, by decide⟩

theorem nested_fragment_nonzeroTest : brackets.Nested nonzeroTest.fragment := by
  obtain ⟨block, hblock, -⟩ := exists_fragment_nonzeroTest
  exact Code.nested_iff_exists_block.2 ⟨block, hblock⟩

theorem nested_fragment {operation : Operation} (hopening : operation ≠ loops.opening)
    (hclosing : operation ≠ loops.closing) : brackets.Nested operation.fragment := by
  match operation with
  | .preamble => exact Code.nested_iff_exists_block.2 ⟨preambleBlock, fragment_preamble.symm⟩
  | .nonzeroTest => exact nested_fragment_nonzeroTest
  | .command (.act action) =>
    obtain ⟨block, hblock, -⟩ := exists_block_fragment action
    exact Code.nested_iff_exists_block.2 ⟨block, hblock⟩
  | .command .loopBegin => exact absurd rfl hopening
  | .command .loopEnd => exact absurd rfl hclosing

/-- What stands in front of the bracket of a loop. -/
def test : Code := nonzeroTest.fragment ++ [.act .right]

theorem length_test : test.length = bracketIndex := List.length_append

theorem nested_test : brackets.Nested test :=
  nested_fragment_nonzeroTest.append (Code.nested_act .right .nil)

theorem fragment_opening :
    loops.opening.fragment = test ++ .loopBegin :: [.act .dec, .act .left] := by
  rw [test, List.append_assoc]
  exact fragment_loopBegin

theorem fragment_closing : loops.closing.fragment = test ++ .loopEnd :: [.act .left] := by
  rw [test, List.append_assoc]
  exact fragment_loopEnd

theorem nested_dec_left : brackets.Nested [.act .dec, .act .left] :=
  Code.nested_act .dec (Code.nested_act .left .nil)

/-- The code of an operation opens and closes as many loops as the operation. -/
theorem depth?_fragment (operation : Operation) (depth : Nat) :
    brackets.depth? operation.fragment depth = loops.depth? [operation] depth := by
  by_cases hopening : operation = loops.opening
  · subst hopening
    rw [fragment_opening, Brackets.depth?_append, nested_test.depth?_eq, Brackets.depth?_opening]
    rfl
  · by_cases hclosing : operation = loops.closing
    · subst hclosing
      rw [fragment_closing, Brackets.depth?_append, nested_test.depth?_eq]
      cases depth <;> rfl
    · rw [(nested_fragment hopening hclosing).depth?_eq, Brackets.depth?_plain hopening hclosing,
        Brackets.depth?_nil]

theorem depth?_flatMap (operations : List Operation) (depth : Nat) :
    brackets.depth? (operations.flatMap fragment) depth = loops.depth? operations depth := by
  induction operations generalizing depth with
  | nil => rfl
  | cons operation operations ih =>
    calc brackets.depth? ((operation :: operations).flatMap fragment) depth
        = (brackets.depth? operation.fragment depth).bind
            (brackets.depth? (operations.flatMap fragment)) := by
          rw [List.flatMap_cons, Brackets.depth?_append]
      _ = (loops.depth? [operation] depth).bind (loops.depth? operations) := by
          rw [depth?_fragment, funext ih]
      _ = loops.depth? (operation :: operations) depth := by
          rw [← Brackets.depth?_append, List.singleton_append]

theorem depth?_compile (operations : List Operation) (depth : Nat) :
    brackets.depth? (compile operations) depth = loops.depth? operations depth := by
  have hpreamble : brackets.Nested preamble.fragment :=
    nested_fragment (fun h => nomatch h) (fun h => nomatch h)
  rw [compile, Brackets.depth?_append, hpreamble.depth?_eq, Option.bind_some, depth?_flatMap]

theorem nested_compile_iff {operations : List Operation} :
    brackets.Nested (compile operations) ↔ loops.Nested operations := by
  rw [Brackets.nested_iff, Brackets.nested_iff, depth?_compile]

theorem nested_flatMap_iff {operations : List Operation} :
    brackets.Nested (operations.flatMap fragment) ↔ loops.Nested operations := by
  rw [Brackets.nested_iff, Brackets.nested_iff, depth?_flatMap]

theorem bracketPosition_eq (front back : List Operation) :
    bracketPosition (front ++ back) front.length = (compile front ++ test).length := by
  rw [bracketPosition, offset, List.take_left, List.length_append, length_test]

theorem compile_opening (front back : List Operation) :
    compile (front ++ loops.opening :: back) =
      (compile front ++ test) ++
        .loopBegin :: ([.act .dec, .act .left] ++ back.flatMap fragment) := by
  rw [compile_append, List.flatMap_cons, fragment_opening]
  simp

theorem compile_closing (front back : List Operation) :
    compile (front ++ loops.closing :: back) =
      (compile front ++ test) ++ .loopEnd :: (.act .left :: back.flatMap fragment) := by
  rw [compile_append, List.flatMap_cons, fragment_closing]
  simp

/-- Partners stay partners. -/
theorem pairs_compile {operations : List Operation} {i j : Nat} (h : loops.Pairs operations i j) :
    brackets.Pairs (compile operations) (bracketPosition operations i)
      (bracketPosition operations j) := by
  obtain ⟨front, body, back, rfl, hbody, rfl, rfl⟩ := Brackets.pairs_iff.1 h
  have hclosing : compile (front ++ loops.opening :: body) ++ test =
      (compile front ++ test) ++
        .loopBegin :: ([.act .dec, .act .left] ++ body.flatMap fragment ++ test) := by
    rw [compile_opening]
    simp
  refine Brackets.pairs_iff.2 ⟨compile front ++ test,
    [.act .dec, .act .left] ++ body.flatMap fragment ++ test, .act .left :: back.flatMap fragment,
    ?_, ?_, ?_, ?_⟩
  · exact (compile_closing ..).trans (congrArg (· ++ _) hclosing)
  · exact (nested_dec_left.append (nested_flatMap_iff.2 hbody)).append nested_test
  · rw [List.append_assoc, bracketPosition_eq]
  · rw [bracketPosition_eq, hclosing]
    rfl

theorem loops_depth?_map (source : Code) (depth : Nat) :
    loops.depth? (source.map command) depth = brackets.depth? source depth := by
  induction source generalizing depth with
  | nil => rfl
  | cons op source ih =>
    cases op with
    | act action =>
      have hplain : loops.depth? ((Opcode.act action :: source).map command) depth =
          loops.depth? (source.map command) depth := by
        apply Brackets.depth?_plain <;> rintro ⟨⟩
      rw [hplain, ih, Code.depth?_act]
    | loopBegin => exact ih (depth + 1)
    | loopEnd =>
      cases depth with
      | zero => rfl
      | succ depth => exact ih depth

theorem nested_map_iff {source : Code} :
    loops.Nested (source.map command) ↔ brackets.Nested source := by
  rw [Brackets.nested_iff, Brackets.nested_iff, loops_depth?_map]

/-- The loop bracket in the code of an opening command is the partner of the one in the code of the
command that closes the loop. -/
theorem partner_compiled_loop {program : Program}
    (hcode : program.code = compile (source.map command))
    {body : Block} (h : Code.Stands (Block.loop body .done).code source place) :
    program.partner (bracketPosition (source.map command) place) =
        bracketPosition (source.map command) (place + 1 + body.code.length) ∧
      program.partner (bracketPosition (source.map command) (place + 1 + body.code.length)) =
        bracketPosition (source.map command) place := by
  obtain ⟨hplace, -⟩ := List.getElem?_eq_some_iff.1 h.cons.1
  obtain ⟨front, back, rfl, rfl⟩ := h.exists_eq (Nat.le_of_lt hplace)
  have hpairs : loops.Pairs ((front ++ (Block.loop body .done).code ++ back).map command)
      front.length (front.length + 1 + body.code.length) := by
    refine ⟨front.map command, body.code.map command, back.map command, ?_, ?_, List.length_map ..,
      by rw [List.length_map]⟩
    · simp [Block.code, loops]
    · exact nested_map_iff.2 (Code.nested_iff_exists_block.2 ⟨body, rfl⟩)
  apply Program.partner_of_pairs
  rw [hcode]
  exact pairs_compile hpairs

end Operation

end ByteTape
