import ByteTape.Block
import ByteTape.Program
import ByteTape.Proofs.Brackets

/-!
# Nesting

A code has a program exactly if it is the code of a block: `exists_ofCode_iff`. In the program, the
brackets of a loop are partners wherever the code of the loop stands, whatever stands around it:
`partner_of_stands`.
-/

namespace ByteTape

def Opcode.brackets : Brackets Opcode := ⟨.loopBegin, .loopEnd, by decide⟩

namespace Code

open Opcode (brackets)

@[simp]
theorem depth?_act (action : Action) (rest : Code) (depth : Nat) :
    brackets.depth? (.act action :: rest) depth = brackets.depth? rest depth := by
  apply Brackets.depth?_plain <;> rintro ⟨⟩

@[simp]
theorem depth?_loopBegin (rest : Code) (depth : Nat) :
    brackets.depth? (.loopBegin :: rest) depth = brackets.depth? rest (depth + 1) :=
  Brackets.depth?_opening rest depth

@[simp]
theorem depth?_loopEnd_zero (rest : Code) : brackets.depth? (.loopEnd :: rest) 0 = none :=
  Brackets.depth?_closing_zero rest

@[simp]
theorem depth?_loopEnd_succ (rest : Code) (depth : Nat) :
    brackets.depth? (.loopEnd :: rest) (depth + 1) = brackets.depth? rest depth :=
  Brackets.depth?_closing_succ rest depth

theorem depth?_append_act (code : Code) (action : Action) (depth : Nat) :
    brackets.depth? (code ++ [.act action]) depth = brackets.depth? code depth := by
  rw [Brackets.depth?_append]
  cases brackets.depth? code depth with
  | none => rfl
  | some final => rw [Option.bind_some, depth?_act, Brackets.depth?_nil]

theorem nested_act (action : Action) {rest : Code} (h : brackets.Nested rest) :
    brackets.Nested (.act action :: rest) := by
  refine .plain ?_ ?_ h <;> rintro ⟨⟩

theorem nested_iff_exists_block {code : Code} :
    brackets.Nested code ↔ ∃ block : Block, block.code = code := by
  constructor
  · intro h
    induction h with
    | nil => exact ⟨.done, rfl⟩
    | @plain op rest hopening hclosing tail ih =>
      obtain ⟨block, rfl⟩ := ih
      cases op with
      | act action => exact ⟨.act action block, rfl⟩
      | loopBegin => exact absurd rfl hopening
      | loopEnd => exact absurd rfl hclosing
    | loop inner tail ihinner ihtail =>
      obtain ⟨body, rfl⟩ := ihinner
      obtain ⟨rest, rfl⟩ := ihtail
      exact ⟨.loop body rest, rfl⟩
  · rintro ⟨block, rfl⟩
    induction block with
    | done => exact .nil
    | act action rest ih => exact nested_act action ih
    | loop body rest ihbody ihrest => exact .loop ihbody ihrest

/-- A block ends where its code can only go on with a closing bracket, so code tells the block. -/
theorem block_eq_of_append_eq {a b : Block} {rest rest' : Code}
    (hrest : ∀ op ∈ rest.head?, op = .loopEnd) (hrest' : ∀ op ∈ rest'.head?, op = .loopEnd)
    (h : a.code ++ rest = b.code ++ rest') : a = b ∧ rest = rest' := by
  induction a generalizing b rest rest' with
  | done =>
    cases b with
    | done => exact ⟨rfl, h⟩
    | act action tail => cases hrest (.act action) (by rw [show rest = _ from h]; rfl)
    | loop body tail => cases hrest .loopBegin (by rw [show rest = _ from h]; rfl)
  | act action tail ih =>
    cases b with
    | done => cases hrest' (.act action) (by rw [show rest' = _ from h.symm]; rfl)
    | act action' tail' =>
      obtain ⟨hop, htails⟩ := List.cons.inj h
      obtain ⟨rfl, rfl⟩ := ih hrest hrest' htails
      cases hop
      exact ⟨rfl, rfl⟩
    | loop body tail' => cases h
  | loop body tail ihbody ihtail =>
    cases b with
    | done => cases hrest' .loopBegin (by rw [show rest' = _ from h.symm]; rfl)
    | act action tail' => cases h
    | loop body' tail' =>
      simp only [Block.code, List.cons_append, List.append_assoc, List.cons.injEq, true_and] at h
      obtain ⟨rfl, houter⟩ := ihbody (by simp) (by simp) h
      obtain ⟨rfl, rfl⟩ := ihtail hrest hrest' (List.cons.inj houter).2
      exact ⟨rfl, rfl⟩

theorem block_eq_of_code_eq {a b : Block} (h : a.code = b.code) : a = b := by
  have happend : a.code ++ [] = b.code ++ [] := by rw [h]
  exact (block_eq_of_append_eq (by simp) (by simp) happend).1

/-- An action at the end of a block is outside its loops. -/
theorem exists_block_of_append_act {block : Block} {code : Code} {action : Action}
    (h : block.code = code ++ [.act action]) :
    ∃ front : Block, front.code = code ∧ block = front ++ .act action .done := by
  have hcode : brackets.Nested code := by
    rw [Brackets.nested_iff, ← depth?_append_act code action, ← Brackets.nested_iff, ← h]
    exact nested_iff_exists_block.2 ⟨block, rfl⟩
  obtain ⟨front, rfl⟩ := nested_iff_exists_block.1 hcode
  refine ⟨front, rfl, block_eq_of_code_eq ?_⟩
  rw [h, Block.code_append]
  rfl

/-! ### Linking -/

theorem exists_linkFrom_iff (code : Code) (position : Nat) (pending : List Nat)
    (partners : Array Nat) :
    (∃ linked, linkFrom code position pending partners = .ok linked) ↔
      brackets.depth? code pending.length = some 0 := by
  fun_induction linkFrom code position pending partners with
  | case1 => simp
  | case2 => simp
  | case3 _ _ _ _ _ ih => rwa [depth?_act]
  | case4 _ _ _ _ ih => rwa [depth?_loopBegin]
  | case5 => simp
  | case6 _ _ _ _ _ ih => rwa [List.length_cons, depth?_loopEnd_succ]

theorem size_of_linkFrom {code : Code} {position : Nat} {pending : List Nat}
    {partners linked : Array Nat} (h : linkFrom code position pending partners = .ok linked) :
    linked.size = partners.size := by
  fun_induction linkFrom code position pending partners with
  | case1 =>
    cases h
    rfl
  | case2 => cases h
  | case3 _ _ _ _ _ ih => exact ih h
  | case4 _ _ _ _ ih => exact ih h
  | case5 => cases h
  | case6 _ _ _ _ _ ih =>
    rw [ih h]
    simp

/-- Only brackets still to come, and those still open, get new partners. -/
theorem getElem?_of_linkFrom {code : Code} {position : Nat} {pending : List Nat}
    {partners linked : Array Nat} (h : linkFrom code position pending partners = .ok linked)
    {place : Nat} (hplace : place < position) (hpending : place ∉ pending) :
    linked[place]? = partners[place]? := by
  fun_induction linkFrom code position pending partners with
  | case1 =>
    cases h
    rfl
  | case2 => cases h
  | case3 _ _ _ _ _ ih => exact ih h (by omega) hpending
  | case4 _ position _ _ ih =>
    refine ih h (by omega) ?_
    rw [List.mem_cons]
    rintro (rfl | hmem)
    · omega
    · exact hpending hmem
  | case5 => cases h
  | case6 _ position start pending partners ih =>
    rw [List.mem_cons, not_or] at hpending
    rw [ih h (by omega) hpending.2, Array.getElem?_setIfInBounds_ne (Ne.symm hpending.1),
      Array.getElem?_setIfInBounds_ne (by omega)]

/-- Linking goes through a block and touches no position outside it. -/
theorem exists_linkFrom_block (block : Block) (position : Nat) (partners : Array Nat) :
    ∃ filled : Array Nat, filled.size = partners.size ∧
      (∀ place < position, filled[place]? = partners[place]?) ∧
      ∀ rest pending, linkFrom (block.code ++ rest) position pending partners =
        linkFrom rest (position + block.code.length) pending filled := by
  induction block generalizing position partners with
  | done => exact ⟨partners, rfl, fun _ _ => rfl, fun _ _ => rfl⟩
  | act action tail ih =>
    obtain ⟨filled, hsize, hkeep, hlink⟩ := ih (position + 1) partners
    refine ⟨filled, hsize, fun place hplace => hkeep place (by omega), ?_⟩
    intro rest pending
    simp only [Block.code, List.cons_append, linkFrom, hlink, List.length_cons]
    rw [Nat.add_right_comm, Nat.add_assoc]
  | loop body tail ihbody ihtail =>
    obtain ⟨inner, hinnerSize, hinnerKeep, hinner⟩ := ihbody (position + 1) partners
    let closing := position + 1 + body.code.length
    obtain ⟨filled, hsize, hkeep, hlink⟩ := ihtail (closing + 1)
      ((inner.setIfInBounds closing position).setIfInBounds position closing)
    refine ⟨filled, by simpa [hinnerSize] using hsize, ?_, ?_⟩
    · intro place hplace
      rw [hkeep place (by omega), Array.getElem?_setIfInBounds_ne (by omega),
        Array.getElem?_setIfInBounds_ne (by omega), hinnerKeep place (by omega)]
    · intro rest pending
      simp only [Block.code, List.cons_append, List.append_assoc, linkFrom, hinner]
      rw [hlink]
      congr 1
      simp only [List.length_cons, List.length_append, closing]
      omega

theorem exists_linkFrom_of_append {front rest : Code} {position : Nat} {pending : List Nat}
    {partners linked : Array Nat}
    (h : linkFrom (front ++ rest) position pending partners = .ok linked)
    (hpending : ∀ start ∈ pending, start < position) :
    ∃ pending' partners', linkFrom rest (position + front.length) pending' partners' = .ok linked ∧
      partners'.size = partners.size ∧ ∀ start ∈ pending', start < position + front.length := by
  induction front generalizing position pending partners with
  | nil => exact ⟨pending, partners, h, rfl, hpending⟩
  | cons op front ih =>
    have hlength : position + (op :: front).length = position + 1 + front.length := by
      simp only [List.length_cons]
      omega
    rw [hlength]
    cases op with
    | act action => exact ih h fun start hstart => Nat.lt_succ_of_lt (hpending start hstart)
    | loopBegin =>
      refine ih h fun start hstart => ?_
      rcases List.mem_cons.1 hstart with rfl | hstart
      · exact Nat.lt_succ_self _
      · exact Nat.lt_succ_of_lt (hpending start hstart)
    | loopEnd =>
      cases pending with
      | nil => cases h
      | cons opening pending =>
        obtain ⟨pending', partners', hlink, hsize, hpending'⟩ := ih h fun start hstart =>
          Nat.lt_succ_of_lt (hpending start (List.mem_cons_of_mem _ hstart))
        exact ⟨pending', partners', hlink, by simpa using hsize, hpending'⟩

/-! ### Where code stands -/

/-- The opcodes of `segment` stand in `code` from `position` on. -/
def Stands (segment code : Code) (position : Nat) : Prop := segment <+: code.drop position

namespace Stands

theorem append {front back code : Code} {position : Nat}
    (h : Stands (front ++ back) code position) :
    Stands front code position ∧ Stands back code (position + front.length) := by
  obtain ⟨rest, hrest⟩ := h
  refine ⟨⟨back ++ rest, by rw [← List.append_assoc, hrest]⟩, rest, ?_⟩
  rw [← List.drop_drop, ← hrest, List.append_assoc, List.drop_left]

theorem cons {op : Opcode} {segment code : Code} {position : Nat}
    (h : Stands (op :: segment) code position) :
    code[position]? = some op ∧ Stands segment code (position + 1) := by
  have hsplit : Stands ([op] ++ segment) code position := h
  refine ⟨?_, hsplit.append.2⟩
  obtain ⟨rest, hrest⟩ := h
  rw [← List.head?_drop, ← hrest]
  rfl

theorem of_getElem? {op : Opcode} {code : Code} {position : Nat} (h : code[position]? = some op) :
    Stands [op] code position := by
  obtain ⟨hposition, rfl⟩ := List.getElem?_eq_some_iff.1 h
  rw [Stands, List.drop_eq_getElem_cons hposition]
  exact ⟨_, rfl⟩

theorem of_eq {front segment back code : Code} (h : code = front ++ segment ++ back) :
    Stands segment code front.length := by
  refine ⟨back, ?_⟩
  rw [h, List.append_assoc, List.drop_left]

theorem exists_eq {segment code : Code} {position : Nat} (h : Stands segment code position)
    (hposition : position ≤ code.length) :
    ∃ front back, code = front ++ segment ++ back ∧ front.length = position := by
  obtain ⟨back, hback⟩ := h
  refine ⟨code.take position, back, ?_, List.length_take_of_le hposition⟩
  rw [List.append_assoc, hback, List.take_append_drop]

end Stands

end Code

namespace Program

open Code

theorem exists_ofCode_iff {code : Code} :
    (∃ program, ofCode code = .ok program) ↔ ∃ block : Block, block.code = code := by
  have hlink := exists_linkFrom_iff code 0 [] (Array.range code.length)
  rw [List.length_nil, ← Brackets.nested_iff, nested_iff_exists_block] at hlink
  rw [← hlink]
  constructor
  · rintro ⟨program, hprogram⟩
    obtain rfl := ofCode_eq_ok_iff.1 hprogram
    exact ⟨program.partners, program.linked⟩
  · rintro ⟨linked, hlinked⟩
    have hlist : code.toArray.toList = code := rfl
    exact ⟨⟨code.toArray, linked, hlinked⟩, ofCode_eq_ok_iff.2 hlist⟩

theorem exists_block (program : Program) : ∃ block : Block, block.code = program.code :=
  exists_ofCode_iff.1 ⟨program, ofCode_eq_ok_iff.2 rfl⟩

theorem opcode?_eq (program : Program) (position : Nat) :
    program.opcode? position = program.code[position]? := by
  simp [opcode?, code]

theorem length_code (program : Program) : program.code.length = program.size := rfl

theorem size_partners (program : Program) : program.partners.size = program.size := by
  rw [size_of_linkFrom program.linked, Array.size_range]
  rfl

theorem partner_eq_of_getElem? {program : Program} {position place : Nat}
    (h : program.partners[position]? = some place) : program.partner position = place := by
  rw [partner, Array.getD_eq_getD_getElem?, h, Option.getD_some]

theorem partner?_eq_some {program : Program} {position : Nat} (h : position < program.size) :
    program.partner? position = some (program.partner position) := by
  have hsize : position < program.partners.size := by rwa [size_partners]
  have hget := Array.getElem?_eq_getElem hsize
  rw [partner?, hget, partner_eq_of_getElem? hget]

/-- The brackets of a loop are partners of each other. -/
theorem partner_of_stands {program : Program} {body : Block} {position : Nat}
    (h : Stands (Block.loop body .done).code program.code position) :
    program.partner position = position + 1 + body.code.length ∧
      program.partner (position + 1 + body.code.length) = position := by
  obtain ⟨hposition, -⟩ := List.getElem?_eq_some_iff.1 h.cons.1
  obtain ⟨front, back, hcode, rfl⟩ := h.exists_eq (Nat.le_of_lt hposition)
  have hlinked := program.linked
  change linkFrom program.code 0 [] (Array.range program.code.length) = _ at hlinked
  rw [hcode, List.append_assoc] at hlinked
  obtain ⟨pending, partners, hlink, hsize, hpending⟩ :=
    exists_linkFrom_of_append hlinked (by simp)
  obtain ⟨filled, hfilled, -, hbody⟩ := exists_linkFrom_block body (front.length + 1) partners
  rw [Nat.zero_add] at hlink hpending
  simp only [Block.code, List.cons_append, List.append_assoc, List.nil_append, linkFrom, hbody]
    at hlink
  -- Both brackets have their partners now, and nothing that follows comes back to them.
  have hend : front.length + 1 + body.code.length < filled.size := by
    rw [hfilled, hsize, Array.size_range]
    simp only [List.length_append, Block.code, List.length_cons]
    omega
  have hopen : front.length ∉ pending := fun hmem => Nat.lt_irrefl _ (hpending _ hmem)
  have hclose : front.length + 1 + body.code.length ∉ pending := by
    intro hmem
    have := hpending _ hmem
    omega
  constructor
  · apply partner_eq_of_getElem?
    rw [getElem?_of_linkFrom hlink (by omega) hopen, Array.getElem?_setIfInBounds_self_of_lt]
    simp only [Array.size_setIfInBounds]
    omega
  · apply partner_eq_of_getElem?
    rw [getElem?_of_linkFrom hlink (by omega) hclose, Array.getElem?_setIfInBounds_ne (by omega),
      Array.getElem?_setIfInBounds_self_of_lt hend]

end Program

end ByteTape
