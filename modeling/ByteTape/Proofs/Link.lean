import ByteTape.Proofs.Brackets
import ByteTape.Proofs.Nesting

/-!
# What linking says about a code

Linking a code counts its brackets, and the count decides the verdict: the code has a program if it
closes all its loops, an unmatched bracket if the count fails, and an unclosed one otherwise. The
fault is at the end of the part in front of which, or behind which, loops nest. In a program the
partners are those of the grammar.
-/

namespace ByteTape

namespace Code

open Opcode (brackets)

theorem exists_linkFrom_unmatched_iff (code : Code) (position : Nat) (pending : List Nat)
    (partners : Array Nat) :
    (∃ place, linkFrom code position pending partners = .error (.unmatched place)) ↔
      brackets.depth? code pending.length = none := by
  fun_induction linkFrom code position pending partners with
  | case1 => simp
  | case2 => simp
  | case3 _ _ _ _ _ ih => rwa [depth?_act]
  | case4 _ _ _ _ ih => rwa [depth?_loopBegin]
  | case5 => simp
  | case6 _ _ _ _ _ ih => rwa [List.length_cons, depth?_loopEnd_succ]

theorem exists_linkFrom_unclosed_iff (code : Code) (position : Nat) (pending : List Nat)
    (partners : Array Nat) :
    (∃ place, linkFrom code position pending partners = .error (.unclosed place)) ↔
      ∃ depth, brackets.depth? code pending.length = some (depth + 1) := by
  fun_induction linkFrom code position pending partners with
  | case1 => simp
  | case2 => simp
  | case3 _ _ _ _ _ ih => rwa [depth?_act]
  | case4 _ _ _ _ ih => rwa [depth?_loopBegin]
  | case5 => simp
  | case6 _ _ _ _ _ ih => rwa [List.length_cons, depth?_loopEnd_succ]

/-- Linking goes through a code that closes nothing it should not, with as many brackets pending as
are open behind it. -/
theorem exists_linkFrom_of_depth {front : Code} {depth : Nat} (position : Nat)
    (pending : List Nat) (partners : Array Nat)
    (h : brackets.depth? front pending.length = some depth) :
    ∃ (pending' : List Nat) (partners' : Array Nat), pending'.length = depth ∧
      ∀ rest, linkFrom (front ++ rest) position pending partners =
        linkFrom rest (position + front.length) pending' partners' := by
  induction front generalizing position pending partners with
  | nil => exact ⟨pending, partners, Option.some.inj h, fun _ => rfl⟩
  | cons op front ih =>
    have hlength : position + (op :: front).length = position + 1 + front.length := by
      rw [List.length_cons]
      omega
    rw [hlength]
    cases op with
    | act action =>
      rw [depth?_act] at h
      exact ih (position + 1) pending partners h
    | loopBegin =>
      rw [depth?_loopBegin] at h
      exact ih (position + 1) (position :: pending) partners h
    | loopEnd =>
      cases pending with
      | nil => cases h
      | cons start pending =>
        rw [List.length_cons, depth?_loopEnd_succ] at h
        exact ih (position + 1) pending _ h

end Code

namespace Program

open Code
open Opcode (brackets)

theorem ofCode_eq_error_iff {code : Code} {fault : BracketFault} :
    ofCode code = .error fault ↔ code.link = .error fault := by
  unfold ofCode
  split <;> rename_i hlink <;> simp [hlink]

theorem exists_ofCode_iff_nested {code : Code} :
    (∃ program, ofCode code = .ok program) ↔ brackets.Nested code := by
  rw [exists_ofCode_iff, nested_iff_exists_block]

theorem exists_unmatched_iff {code : Code} :
    (∃ position, ofCode code = .error (.unmatched position)) ↔ brackets.depth? code 0 = none := by
  simp only [ofCode_eq_error_iff]
  exact exists_linkFrom_unmatched_iff code 0 [] _

theorem exists_unclosed_iff {code : Code} :
    (∃ position, ofCode code = .error (.unclosed position)) ↔
      ∃ depth, brackets.depth? code 0 = some (depth + 1) := by
  simp only [ofCode_eq_error_iff]
  exact exists_linkFrom_unclosed_iff code 0 [] _

theorem ofCode_unmatched {front : Code} (h : brackets.Nested front) (back : Code) :
    ofCode (front ++ .loopEnd :: back) = .error (.unmatched front.length) := by
  rw [ofCode_eq_error_iff, link]
  obtain ⟨pending, partners, hpending, hlink⟩ :=
    exists_linkFrom_of_depth 0 [] (Array.range (front ++ .loopEnd :: back).length) (h.depth?_eq 0)
  rw [hlink, List.length_eq_zero_iff.1 hpending, linkFrom, Nat.zero_add]

theorem ofCode_unclosed {front back : Code} {depth : Nat}
    (hfront : brackets.depth? front 0 = some depth) (hback : brackets.Nested back) :
    ofCode (front ++ .loopBegin :: back) = .error (.unclosed front.length) := by
  rw [ofCode_eq_error_iff, link]
  obtain ⟨pending, partners, -, hlink⟩ :=
    exists_linkFrom_of_depth 0 [] (Array.range (front ++ .loopBegin :: back).length) hfront
  obtain ⟨block, hblock⟩ := nested_iff_exists_block.1 hback
  obtain ⟨filled, -, -, hfilled⟩ := exists_linkFrom_block block (0 + front.length + 1) partners
  have hend := hfilled [] ((0 + front.length) :: pending)
  rw [List.append_nil, hblock] at hend
  rw [hlink, linkFrom, hend, linkFrom, Nat.zero_add]

/-- The partners in a program are those of the grammar. -/
theorem partner_of_pairs {program : Program} {i j : Nat} (h : brackets.Pairs program.code i j) :
    program.partner i = j ∧ program.partner j = i := by
  obtain ⟨front, body, back, hcode, hbody, rfl, rfl⟩ := h
  obtain ⟨block, rfl⟩ := nested_iff_exists_block.1 hbody
  have hsplit : program.code = front ++ (Block.loop block .done).code ++ back := by
    rw [hcode]
    simp [Block.code, brackets]
  exact partner_of_stands (.of_eq hsplit)

theorem nested_code (program : Program) : brackets.Nested program.code :=
  exists_ofCode_iff_nested.1 ⟨program, ofCode_eq_ok_iff.2 rfl⟩

theorem exists_pairs_of_loopBegin {program : Program} {i : Nat}
    (h : program.code[i]? = some .loopBegin) : ∃ j, brackets.Pairs program.code i j := by
  by_contra hnone
  exact program.nested_code.not_unclosed i ⟨h, fun j hj => hnone ⟨j, hj⟩⟩

theorem exists_pairs_of_loopEnd {program : Program} {j : Nat}
    (h : program.code[j]? = some .loopEnd) : ∃ i, brackets.Pairs program.code i j := by
  by_contra hnone
  exact Brackets.not_unmatched (program.nested_code.depth?_eq 0) j ⟨h, fun i hi => hnone ⟨i, hi⟩⟩

theorem getElem?_partner_loopBegin {program : Program} {position : Nat}
    (h : program.code[position]? = some .loopBegin) :
    program.code[program.partner position]? = some .loopEnd := by
  obtain ⟨j, hpairs⟩ := exists_pairs_of_loopBegin h
  rw [(partner_of_pairs hpairs).1]
  exact hpairs.getElem?.2

theorem getElem?_partner_loopEnd {program : Program} {position : Nat}
    (h : program.code[position]? = some .loopEnd) :
    program.code[program.partner position]? = some .loopBegin := by
  obtain ⟨i, hpairs⟩ := exists_pairs_of_loopEnd h
  rw [(partner_of_pairs hpairs).2]
  exact hpairs.getElem?.1

end Program

end ByteTape
