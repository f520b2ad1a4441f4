import ByteTape.Assembly
import ByteTape.Proofs.Nesting

/-!
# What is assembled

The commands of a source text are the opcodes of the text read as code. A text is assembled exactly
if its code is that of a block, into the compiled commands.
-/

namespace ByteTape

namespace Source

theorem ofLine_cons {c : Char} (h : c ≠ Code.commentMarker) (line : List Char) :
    Code.ofLine (c :: line) = (Opcode.ofChar? c).toList ++ Code.ofLine line := by
  unfold Code.ofLine
  rw [List.takeWhile_cons_of_pos (by simpa using h), List.filterMap_cons]
  cases Opcode.ofChar? c <;> rfl

theorem map_scanFrom (comment : Bool) (offset : Nat) (text : List Char) :
    (scanFrom comment offset text).map Token.op =
      (if comment then (text.splitOn '\n').tail else text.splitOn '\n').flatMap Code.ofLine := by
  induction text generalizing comment offset with
  | nil => cases comment <;> simp [scanFrom, Code.ofLine]
  | cons c text ih =>
    obtain ⟨line, lines, hlines⟩ := List.exists_cons_of_ne_nil (List.splitOn_ne_nil '\n' text)
    have hfalse := ih false
    have htrue := ih true
    simp only [hlines] at hfalse htrue
    rw [List.splitOn_cons_eq_if_modifyHead, hlines]
    unfold scanFrom
    by_cases hnewline : c = '\n'
    · subst hnewline
      cases comment with
      | true => simpa using hfalse _
      | false =>
        have hskip : Opcode.ofChar? '\n' = none := rfl
        simpa [Code.commentMarker, hskip, Code.ofLine] using hfalse _
    · cases comment with
      | true => simpa [hnewline] using htrue _
      | false =>
        by_cases hmarker : c = Code.commentMarker
        · subst hmarker
          simpa [hnewline, Code.ofLine] using htrue _
        · have hline := ofLine_cons hmarker line
          cases hop : Opcode.ofChar? c with
          | some op =>
            rw [hop] at hline
            simpa [hnewline, hmarker, hop, hline] using hfalse _
          | none =>
            rw [hop] at hline
            simpa [hnewline, hmarker, hop, hline] using hfalse _

theorem map_scan (text : String) : (scan text).map Token.op = Code.ofString text :=
  map_scanFrom false 0 text.toList

theorem nest_eq_ok_iff (tokens : List Token) (pending : List Nat) :
    nest tokens pending = .ok () ↔
      Opcode.brackets.depth? (tokens.map Token.op) pending.length = some 0 := by
  fun_induction nest tokens pending with
  | case1 => simp
  | case2 => simp
  | case3 action start rest pending ih => rwa [List.map_cons, Code.depth?_act]
  | case4 start rest pending ih => rwa [List.map_cons, Code.depth?_loopBegin]
  | case5 => simp
  | case6 start rest _ pending ih =>
    rwa [List.map_cons, List.length_cons, Code.depth?_loopEnd_succ]

theorem operations_eq_ok_iff {text : String} {operations : List Operation} :
    Source.operations text = .ok operations ↔
      (∃ block : Block, block.code = Code.ofString text) ∧
        operations = (Code.ofString text).map .command := by
  have hnested := nest_eq_ok_iff (scan text) []
  rw [List.length_nil, ← Brackets.nested_iff, Code.nested_iff_exists_block, map_scan] at hnested
  rw [← hnested, ← map_scan, List.map_map]
  cases hnest : nest (scan text) [] with
  | ok value =>
    have hoperations : Source.operations text =
        .ok ((scan text).map fun token => Operation.command token.op) := by
      simp only [Source.operations, hnest]
    rw [hoperations, Except.ok.injEq, eq_comm]
    exact (and_iff_right rfl).symm
  | error fault =>
    have hoperations : Source.operations text ≠ .ok operations := by
      cases fault <;> simp [Source.operations, hnest]
    constructor
    · exact fun h => absurd h hoperations
    · rintro ⟨⟨⟩, -⟩

end Source

theorem assemble_eq_ok {text : String} {assembly : Assembly} (h : assemble text = .ok assembly) :
    (∃ block : Block, block.code = Code.ofString text) ∧
      assembly.operations = (Code.ofString text).map .command ∧
        assembly.program.code = Operation.compile assembly.operations := by
  unfold assemble at h
  cases hoperations : Source.operations text with
  | error fault =>
    rw [hoperations] at h
    cases h
  | ok operations =>
    simp only [hoperations, bind, Except.bind] at h
    obtain ⟨hblock, rfl⟩ := Source.operations_eq_ok_iff.1 hoperations
    cases hprogram : Program.ofCode (Operation.compile ((Code.ofString text).map .command)) with
    | error fault =>
      rw [hprogram] at h
      cases h
    | ok program =>
      rw [hprogram] at h
      cases h
      exact ⟨hblock, rfl, Program.ofCode_eq_ok_iff.1 hprogram⟩

end ByteTape
