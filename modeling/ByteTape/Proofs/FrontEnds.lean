import Mathlib.Data.List.Induction
import ByteTape.Proofs.Lexing
import ByteTape.Proofs.Link
import ByteTape.Proofs.Source

/-!
# Two readings of one text

A text can be read as a program of the machine and as a source text of the assembly language. Both
readings find the same commands and accept the same texts. Where loops do not nest, both blame the
same character: the first reading by its number among the commands, the second by its line and
column.
-/

namespace ByteTape

namespace BracketFault

def position : BracketFault → Nat
  | .unmatched position => position
  | .unclosed position => position

/-- The bracket to blame. -/
def bracket : BracketFault → Opcode
  | .unmatched _ => .loopEnd
  | .unclosed _ => .loopBegin

def map (f : Nat → Nat) : BracketFault → BracketFault
  | .unmatched position => .unmatched (f position)
  | .unclosed position => .unclosed (f position)

/-- The fault of a source text that has its bracket to blame at `place`. -/
def located (place : Source.Place) : BracketFault → AssemblyFault
  | .unmatched _ => .unmatched place
  | .unclosed _ => .unclosed place

end BracketFault

theorem Program.getElem?_of_ofCode_eq_error {code : Code} {fault : BracketFault}
    (h : ofCode code = .error fault) : code[fault.position]? = some fault.bracket := by
  rcases Opcode.brackets.nested_cases code with
    hnested | ⟨front, back, rfl, hfront⟩ | ⟨front, back, depth, rfl, hback, hfront⟩
  · obtain ⟨program, hprogram⟩ := exists_ofCode_iff_nested.2 hnested
    rw [hprogram] at h
    cases h
  · obtain rfl := Except.error.inj ((ofCode_unmatched hfront back).symm.trans h)
    exact (Brackets.unmatched_length hfront back).1
  · obtain rfl := Except.error.inj ((ofCode_unclosed hfront hback).symm.trans h)
    exact (Brackets.unclosed_length front hback).1

namespace Source

/-! ### Lines and columns -/

namespace Place

/-- The place of what comes next behind `front`. The line is the number of line feeds, from 1, and
the column counts the characters behind the last of them. -/
def Follows (front : List Char) (place : Place) : Prop :=
  ∃ lines line, front = lines ++ line ∧ (lines = [] ∨ lines.getLast? = some '\n') ∧
    '\n' ∉ line ∧ place = ⟨lines.count '\n' + 1, line.length + 1⟩

def next (place : Place) (c : Char) : Place :=
  if c = '\n' then ⟨place.line + 1, 1⟩ else ⟨place.line, place.column + 1⟩

theorem Follows.next {front : List Char} {place : Place} (h : place.Follows front) (c : Char) :
    (place.next c).Follows (front ++ [c]) := by
  obtain ⟨lines, line, rfl, hlines, hline, rfl⟩ := h
  by_cases hc : c = '\n'
  · subst hc
    refine ⟨lines ++ line ++ ['\n'], [], (List.append_nil _).symm, .inr (by simp),
      List.not_mem_nil, ?_⟩
    simp [Place.next, List.count_eq_zero_of_not_mem hline]
  · refine ⟨lines, line ++ [c], List.append_assoc _ _ _, hlines, by simp [hline, Ne.symm hc], ?_⟩
    simp [Place.next, hc]

theorem advance_eq_foldl (front rest : List Char) (place : Place) :
    place.advance (front ++ rest) (Notation.byteSize front) = front.foldl Place.next place := by
  induction front generalizing place with
  | nil => cases rest <;> simp [advance]
  | cons c front ih =>
    have hpos := c.utf8Size_pos
    rw [List.cons_append, advance, Notation.byteSize_cons, if_neg (by omega),
      Nat.add_sub_cancel_left, ih, ih, List.foldl_cons, Place.next]
    split <;> rfl

theorem follows_foldl_next (front : List Char) : (front.foldl Place.next ⟨1, 1⟩).Follows front := by
  induction front using List.reverseRecOn with
  | nil => exact ⟨[], [], rfl, .inl rfl, List.not_mem_nil, rfl⟩
  | append_singleton front c ih =>
    rw [List.foldl_concat]
    exact ih.next c

theorem follows_ofOffset (text : String) (index : Nat) :
    (ofOffset text (Notation.byteSize (text.toList.take index))).Follows
      (text.toList.take index) := by
  have hfold := advance_eq_foldl (text.toList.take index) (text.toList.drop index) ⟨1, 1⟩
  rw [List.take_append_drop] at hfold
  rw [ofOffset, hfold]
  exact follows_foldl_next _

end Place

/-! ### The bracket to blame -/

/-- Nesting tokens is linking their opcodes, except that a fault carries an offset instead of a
position. -/
theorem nest_eq_linkFrom (starts : Nat → Nat) {tokens : List Token} {position : Nat}
    (h : ∀ k token, tokens[k]? = some token → starts (position + k) = token.start)
    (pending : List Nat) (partners : Array Nat) :
    nest tokens (pending.map starts) =
      ((Code.linkFrom (tokens.map Token.op) position pending partners).map fun _ => ()).mapError
        (BracketFault.map starts) := by
  induction tokens generalizing position pending partners with
  | nil => cases pending <;> rfl
  | cons token tokens ih =>
    obtain ⟨op, start⟩ := token
    have hstart : starts position = start := h 0 ⟨op, start⟩ rfl
    have htail : ∀ k token, tokens[k]? = some token → starts (position + 1 + k) = token.start := by
      intro k token htoken
      rw [Nat.add_assoc, Nat.add_comm 1 k]
      exact h (k + 1) token htoken
    cases op with
    | act action => exact ih htail pending partners
    | loopBegin =>
      rw [← hstart]
      exact ih htail (position :: pending) partners
    | loopEnd =>
      cases pending with
      | nil =>
        rw [← hstart]
        rfl
      | cons opened pending => exact ih htail pending _

theorem nest_of_ofString_eq_error {text : String} {fault : BracketFault} {token : Token}
    (h : Program.ofString text = .error fault)
    (htoken : (scan text)[fault.position]? = some token) :
    nest (scan text) [] = .error (fault.map fun _ => token.start) := by
  -- Past the last token there is no offset, and none is asked for.
  let starts : Nat → Nat := fun k => ((scan text)[k]?.map Token.start).getD 0
  have hstarts : ∀ k token, (scan text)[k]? = some token → starts (0 + k) = token.start := by
    intro k token hk
    simp [starts, hk]
  have hlink : Code.linkFrom ((scan text).map Token.op) 0 []
      (Array.range (Code.ofString text).length) = .error fault := by
    rw [map_scan]
    exact Program.ofCode_eq_error_iff.1 h
  have hnest := nest_eq_linkFrom starts hstarts [] (Array.range (Code.ofString text).length)
  rw [hlink] at hnest
  have hstart := hstarts fault.position token htoken
  rw [Nat.zero_add] at hstart
  refine hnest.trans (congrArg Except.error ?_)
  cases fault with
  | unmatched position => exact congrArg BracketFault.unmatched hstart
  | unclosed position => exact congrArg BracketFault.unclosed hstart

theorem Listing.exists_place {text : List Char} {first : Nat} {tokens : List Token}
    {places : List Nat} (h : Listing text first tokens places) {k : Nat} {token : Token}
    (htoken : tokens[k]? = some token) :
    ∃ index, places[k]? = some index ∧ token.StandsAt text index := by
  obtain ⟨hk, rfl⟩ := List.getElem?_eq_some_iff.1 htoken
  have hplace : k < places.length := h.stands.length_eq ▸ hk
  exact ⟨places[k], List.getElem?_eq_getElem hplace, h.stands.get hk hplace⟩

theorem operations_of_ofString_eq_error {text : String} {fault : BracketFault} {places : List Nat}
    (hplaces : Listing text.toList 0 (scan text) places)
    (h : Program.ofString text = .error fault) :
    ∃ index place, places[fault.position]? = some index ∧
      text.toList[index]? = some fault.bracket.toChar ∧ place.Follows (text.toList.take index) ∧
      operations text = .error (fault.located place) := by
  have hop := Program.getElem?_of_ofCode_eq_error h
  rw [← map_scan, List.getElem?_map] at hop
  obtain ⟨token, htoken, hop⟩ := Option.map_eq_some_iff.1 hop
  obtain ⟨index, hindex, hcommand, hstart⟩ := hplaces.exists_place htoken
  refine ⟨index, .ofOffset text token.start, hindex, hop ▸ hcommand.1, ?_, ?_⟩
  · rw [hstart]
    exact Place.follows_ofOffset text index
  · have hnest := nest_of_ofString_eq_error h htoken
    cases fault <;> simp only [operations, hnest] <;> rfl

theorem operations_eq_ok_iff_ofString {text : String} {operations : List Operation} :
    Source.operations text = .ok operations ↔
      ∃ program, Program.ofString text = .ok program ∧ operations = program.code.map .command := by
  rw [operations_eq_ok_iff, ← Program.exists_ofCode_iff]
  constructor
  · rintro ⟨⟨program, hprogram⟩, rfl⟩
    exact ⟨program, hprogram, by rw [Program.ofCode_eq_ok_iff.1 hprogram]⟩
  · rintro ⟨program, hprogram, rfl⟩
    exact ⟨⟨program, hprogram⟩, by rw [Program.ofCode_eq_ok_iff.1 hprogram]⟩

/-- **Both readings find the same program.** A text cut up by longest match has the commands of the
program, which are the command characters outside of comments, in order, and its operations are one
for each. When there is no program, the place of the fault is that of the character that became the
bracket to blame. -/
theorem front_ends_agree (text : String) :
    (∀ tokens, Lexes 0 text.toList tokens ↔ tokens = scan text) ∧
    (scan text).map Token.op = Code.ofString text ∧
    (∀ operations, Source.operations text = .ok operations ↔
      ∃ program, Program.ofString text = .ok program ∧
        operations = program.code.map .command) ∧
    ∃ places, Listing text.toList 0 (scan text) places ∧
      (∀ position, Program.ofString text = .error (.unmatched position) →
        ∃ index line column, places[position]? = some index ∧ text.toList[index]? = some ']' ∧
          (Place.mk line column).Follows (text.toList.take index) ∧
          Source.operations text = .error (.unmatched ⟨line, column⟩) ∧
          AssemblyFault.message (.unmatched ⟨line, column⟩) =
            s!"Syntax error at line {line}, column {column}: `]` without a matching `[`") ∧
      ∀ position, Program.ofString text = .error (.unclosed position) →
        ∃ index line column, places[position]? = some index ∧ text.toList[index]? = some '[' ∧
          (Place.mk line column).Follows (text.toList.take index) ∧
          Source.operations text = .error (.unclosed ⟨line, column⟩) ∧
          AssemblyFault.message (.unclosed ⟨line, column⟩) =
            s!"Syntax error at line {line}, column {column}: `[` is never closed" := by
  obtain ⟨places, hplaces⟩ := exists_listing text
  refine ⟨fun tokens => lexes_iff, map_scan text, fun operations => operations_eq_ok_iff_ofString,
    places, hplaces, ?_, ?_⟩
  all_goals
    intro position h
    obtain ⟨index, ⟨line, column⟩, hindex, hchar, hplace, hoperations⟩ :=
      operations_of_ofString_eq_error hplaces h
    exact ⟨index, line, column, hindex, hchar, hplace, hoperations, rfl⟩

end Source

end ByteTape
