import ByteTape.Proofs.Link

/-!
# Counting brackets

Linking follows the count of opening brackets less closing ones. A code has a program exactly if the
count is never negative and ends at 0. The partner of an opening bracket is where the count first
returns to its value before that bracket. Without a program, the bracket to blame is the one that
makes the count negative, or else the last one after which the count never returns.
-/

namespace ByteTape

theorem Brackets.depth?_eq_none_iff {α : Type} [DecidableEq α] {b : Brackets α} {l : List α} :
    b.depth? l 0 = none ↔ ∃ front back, l = front ++ b.closing :: back ∧ b.Nested front := by
  constructor
  · intro h
    rcases b.nested_cases l with hl | hcut | ⟨front, back, depth, rfl, hback, hfront⟩
    · rw [hl.depth?_eq] at h
      cases h
    · exact hcut
    · rw [depth?_append, hfront, Option.bind_some, depth?_opening, hback.depth?_eq] at h
      cases h
  · rintro ⟨front, back, rfl, hfront⟩
    rw [depth?_append, hfront.depth?_eq, Option.bind_some, depth?_closing_zero]

namespace Code

open Opcode (brackets)

/-! ### The count -/

@[simp]
theorem balance_nil : balance [] = 0 := rfl

@[simp]
theorem balance_act_cons (action : Action) (code : Code) :
    balance (.act action :: code) = balance code := by
  simp [balance]

@[simp]
theorem balance_loopBegin_cons (code : Code) :
    balance (.loopBegin :: code) = balance code + 1 := by
  have hne : Opcode.loopBegin ≠ .loopEnd := by decide
  simp only [balance, List.count_cons_self, List.count_cons_of_ne hne]
  omega

@[simp]
theorem balance_loopEnd_cons (code : Code) : balance (.loopEnd :: code) = balance code - 1 := by
  have hne : Opcode.loopEnd ≠ .loopBegin := by decide
  simp only [balance, List.count_cons_self, List.count_cons_of_ne hne]
  omega

@[simp]
theorem balance_append (front back : Code) :
    balance (front ++ back) = balance front + balance back := by
  simp only [balance, List.count_append]
  omega

/-- The count behind the first `n` opcodes. -/
def level (code : Code) (n : Nat) : Int := balance (code.take n)

@[simp]
theorem level_zero (code : Code) : code.level 0 = 0 := rfl

@[simp]
theorem level_succ (op : Opcode) (code : Code) (n : Nat) :
    level (op :: code) (n + 1) = balance [op] + code.level n := by
  rw [level, List.take_succ_cons, ← List.singleton_append, balance_append, level]

theorem level_length_add (front back : Code) (n : Nat) :
    level (front ++ back) (front.length + n) = balance front + back.level n := by
  rw [level, List.take_length_add_append, balance_append, level]

theorem level_of_le_length {front : Code} (back : Code) {n : Nat} (h : n ≤ front.length) :
    level (front ++ back) n = front.level n := by
  rw [level, List.take_append_of_le_length h, level]

theorem forall_level_cons {op : Opcode} {code : Code} {start : Int} :
    (∀ n, 0 ≤ start + level (op :: code) n) ↔
      0 ≤ start ∧ ∀ n, 0 ≤ start + balance [op] + code.level n := by
  constructor
  · intro h
    refine ⟨Int.add_zero start ▸ h 0, fun n => ?_⟩
    rw [Int.add_assoc, ← level_succ]
    exact h (n + 1)
  · rintro ⟨hzero, hsucc⟩ n
    cases n with
    | zero => rwa [level_zero, Int.add_zero]
    | succ n =>
      rw [level_succ, ← Int.add_assoc]
      exact hsucc n

/-- As many loops are open as the count says, as long as it does not get negative. -/
theorem depth?_eq_some_iff {code : Code} {depth final : Nat} :
    brackets.depth? code depth = some final ↔
      (∀ n, 0 ≤ depth + code.level n) ∧ (final : Int) = depth + code.balance := by
  induction code generalizing depth with
  | nil =>
    simp only [level, Brackets.depth?_nil, List.take_nil, balance_nil, Option.some.injEq,
      Int.add_zero, Int.natCast_nonneg, implies_true, true_and, Int.natCast_inj]
    exact eq_comm
  | cons op code ih =>
    have hbalance : balance (op :: code) = balance [op] + balance code := balance_append [op] code
    have hnonneg : 0 ≤ (depth : Int) := Int.natCast_nonneg depth
    rw [forall_level_cons, hbalance, ← Int.add_assoc, and_iff_right hnonneg]
    cases op with
    | act action =>
      have hstep : (depth : Int) + balance [.act action] = depth := by simp
      rw [hstep, depth?_act, ih]
    | loopBegin =>
      have hstep : (depth : Int) + balance [.loopBegin] = (depth + 1 : Nat) := by simp
      rw [hstep, depth?_loopBegin, ih]
    | loopEnd =>
      cases depth with
      | zero =>
        simp only [depth?_loopEnd_zero, reduceCtorEq, false_iff]
        rintro ⟨hlevel, -⟩
        exact absurd (hlevel 0) (by simp)
      | succ depth =>
        have hstep : ((depth + 1 : Nat) : Int) + balance [.loopEnd] = depth := by
          rw [balance_loopEnd_cons, balance_nil]
          omega
        rw [hstep, depth?_loopEnd_succ, ih]

theorem nested_iff_balance {code : Code} :
    brackets.Nested code ↔ (∀ n, 0 ≤ code.level n) ∧ code.balance = 0 := by
  rw [Brackets.nested_iff, depth?_eq_some_iff]
  simp only [Int.natCast_zero, Int.zero_add, eq_comm]

/-- No loop is closed too often exactly if the count never comes to -1. -/
theorem depth?_ne_none_iff {code : Code} :
    brackets.depth? code 0 ≠ none ↔ ∀ n, code.level n ≠ -1 := by
  constructor
  · intro h n
    obtain ⟨final, hfinal⟩ := Option.ne_none_iff_exists'.1 h
    have hlevel := (depth?_eq_some_iff.1 hfinal).1 n
    omega
  · intro h hnone
    obtain ⟨front, back, rfl, hfront⟩ := Brackets.depth?_eq_none_iff.1 hnone
    apply h (front.length + 1)
    rw [level_length_add, (nested_iff_balance.1 hfront).2]
    rfl

/-! ### Places of brackets -/

theorem level_opening (front back : Code) (n : Nat) :
    level (front ++ brackets.opening :: back) (front.length + 1 + n) =
      level (front ++ brackets.opening :: back) front.length + 1 + back.level n := by
  have hstart := level_length_add front (brackets.opening :: back) 0
  have hbehind := level_length_add front (brackets.opening :: back) (n + 1)
  have hone : balance [brackets.opening] = 1 := rfl
  rw [level_zero, Int.add_zero, Nat.add_zero] at hstart
  rw [level_succ, hone, ← Int.add_assoc] at hbehind
  rw [hstart, ← hbehind, Nat.add_assoc, Nat.add_comm 1]

theorem balance_extract (code : Code) {i n : Nat} (h : i ≤ n) :
    balance (code.extract i n) = code.level n - code.level i := by
  obtain ⟨k, rfl⟩ := Nat.exists_eq_add_of_le h
  rw [level, List.take_add, balance_append, List.extract_eq_take_drop, Nat.add_sub_cancel_left,
    level]
  omega

/-- A loop closes where the count is first what it was before the loop. -/
theorem isLeast_of_pairs {code : Code} {i j : Nat} (h : brackets.Pairs code i j) :
    IsLeast {j | i < j ∧ j < code.length ∧ balance (code.extract i (j + 1)) = 0} j := by
  obtain ⟨hj, -⟩ := List.getElem?_eq_some_iff.1 h.getElem?.2
  obtain ⟨front, body, back, rfl, hbody, rfl, rfl⟩ := h
  obtain ⟨hlevel, hbalance⟩ := nested_iff_balance.1 hbody
  constructor
  · refine ⟨by omega, hj, ?_⟩
    have hend := level_length_add body (brackets.closing :: back) 1
    rw [balance_extract _ (by omega), Nat.add_assoc _ body.length, level_opening, hend, hbalance]
    have hclosing : level (brackets.closing :: back) 1 = -1 := rfl
    omega
  · rintro j ⟨hlow, -, hzero⟩
    by_contra hlt
    obtain ⟨k, rfl⟩ := Nat.exists_eq_add_of_lt hlow
    -- Within the body the loop itself is still open.
    have hinside : level (body ++ brackets.closing :: back) (k + 1) = level body (k + 1) :=
      level_of_le_length _ (by omega)
    have hnonneg := hlevel (k + 1)
    rw [balance_extract _ (by omega), Nat.add_right_comm _ k, Nat.add_assoc _ k, level_opening,
      hinside] at hzero
    omega

/-- A loop is never closed exactly if the count is never again what it was before the loop. -/
theorem unclosed_iff_level {code : Code} {i : Nat} :
    brackets.Unclosed code i ↔
      code[i]? = some .loopBegin ∧ ∀ n > i, code.level n ≠ code.level i := by
  refine and_congr_right fun hopening => ?_
  obtain ⟨front, back, rfl, rfl⟩ := Brackets.exists_eq_append_of_getElem? hopening
  have hpairs := Brackets.exists_pairs_opening_iff (b := brackets) front back
  rw [← Brackets.depth?_eq_none_iff] at hpairs
  rw [← not_exists, hpairs, ← ne_eq, depth?_ne_none_iff]
  have hlevel := level_opening front back
  constructor
  · intro h n hn
    obtain ⟨k, rfl⟩ := Nat.exists_eq_add_of_lt hn
    have hback := h k
    rw [Nat.add_right_comm, hlevel]
    omega
  · intro h n
    have hback := h (front.length + 1 + n) (by omega)
    rw [hlevel] at hback
    omega

/-- The first closing bracket without a partner makes the count negative. -/
theorem isLeast_level_neg {front : Code} (h : brackets.Nested front) (back : Code) :
    IsLeast {j | j < (front ++ .loopEnd :: back).length ∧
      level (front ++ .loopEnd :: back) (j + 1) < 0} front.length := by
  obtain ⟨hlevel, hbalance⟩ := nested_iff_balance.1 h
  constructor
  · refine ⟨by simp, ?_⟩
    rw [level_length_add, hbalance, level_succ, level_zero]
    decide
  · rintro j ⟨-, hneg⟩
    by_contra hlt
    rw [level_of_le_length _ (Nat.lt_of_not_le hlt)] at hneg
    exact Int.not_lt.2 (hlevel _) hneg

/-! ### The partner of an action -/

/-- Only brackets get new partners. -/
theorem getElem?_linkFrom_act {code : Code} {position : Nat} {pending : List Nat}
    {partners linked : Array Nat} (h : linkFrom code position pending partners = .ok linked)
    (hpending : ∀ start ∈ pending, start < position) {place : Nat} {action : Action}
    (hact : code[place]? = some (.act action)) :
    linked[position + place]? = partners[position + place]? := by
  fun_induction linkFrom code position pending partners generalizing place with
  | case1 => cases hact
  | case2 => cases h
  | case3 _ rest position pending partners ih =>
    cases place with
    | zero =>
      refine getElem?_of_linkFrom h (Nat.lt_succ_self _) fun hmem => ?_
      exact Nat.lt_irrefl _ (hpending _ hmem)
    | succ place =>
      have hnext := ih h (fun start hstart => Nat.lt_succ_of_lt (hpending start hstart)) hact
      rwa [Nat.add_right_comm, Nat.add_assoc] at hnext
  | case4 rest position pending partners ih =>
    cases place with
    | zero => cases hact
    | succ place =>
      have hnext := ih h ?_ hact
      · rwa [Nat.add_right_comm, Nat.add_assoc] at hnext
      · intro start hstart
        rcases List.mem_cons.1 hstart with rfl | hstart
        · exact Nat.lt_succ_self _
        · exact Nat.lt_succ_of_lt (hpending start hstart)
  | case5 => cases h
  | case6 rest position start pending partners ih =>
    cases place with
    | zero => cases hact
    | succ place =>
      have hstart := hpending start List.mem_cons_self
      have hnext := ih h ?_ hact
      · rw [Nat.add_right_comm, Nat.add_assoc] at hnext
        rw [hnext, Array.getElem?_setIfInBounds_ne (by omega),
          Array.getElem?_setIfInBounds_ne (by omega)]
      · intro other hother
        exact Nat.lt_succ_of_lt (hpending other (List.mem_cons_of_mem _ hother))

end Code

namespace Program

open Code
open Opcode (brackets)

theorem partner?_act {program : Program} {position : Nat} {action : Action}
    (h : program.code[position]? = some (.act action)) :
    program.partner? position = some position := by
  have hlink := getElem?_linkFrom_act program.linked (by simp) h
  obtain ⟨hlt, -⟩ := List.getElem?_eq_some_iff.1 h
  rw [Nat.zero_add] at hlink
  rw [partner?, hlink, Array.getElem?_range]
  exact if_pos hlt

theorem partner?_of_pairs {program : Program} {i j : Nat} (h : brackets.Pairs program.code i j) :
    program.partner? i = some j ∧ program.partner? j = some i := by
  obtain ⟨hi, hj⟩ := h.getElem?
  obtain ⟨hpartner, hpartner'⟩ := partner_of_pairs h
  rw [partner?_eq_some (List.getElem?_eq_some_iff.1 hi).1,
    partner?_eq_some (List.getElem?_eq_some_iff.1 hj).1, hpartner, hpartner']
  exact ⟨rfl, rfl⟩

/-- Partners are partners of each other. -/
theorem partner?_symm {program : Program} {i j : Nat} (h : program.partner? i = some j) :
    program.partner? j = some i := by
  have hlt : i < program.code.length := by
    rw [length_code, ← size_partners]
    exact (Array.getElem?_eq_some_iff.1 h).1
  have hop := List.getElem?_eq_getElem hlt
  cases hcase : program.code[i] with
  | act action =>
    rw [hcase] at hop
    have hself := partner?_act hop
    obtain rfl := Option.some.inj (hself.symm.trans h)
    exact h
  | loopBegin =>
    rw [hcase] at hop
    obtain ⟨j', hpairs⟩ := exists_pairs_of_loopBegin hop
    obtain ⟨hforth, hback⟩ := partner?_of_pairs hpairs
    obtain rfl := Option.some.inj (hforth.symm.trans h)
    exact hback
  | loopEnd =>
    rw [hcase] at hop
    obtain ⟨i', hpairs⟩ := exists_pairs_of_loopEnd hop
    obtain ⟨hforth, hback⟩ := partner?_of_pairs hpairs
    obtain rfl := Option.some.inj (hback.symm.trans h)
    exact hforth

theorem isLeast_of_ofCode {code : Code} {position : Nat}
    (h : ofCode code = .error (.unmatched position)) :
    IsLeast {j | j < code.length ∧ code.level (j + 1) < 0} position := by
  obtain ⟨front, back, rfl, hfront⟩ :=
    Brackets.depth?_eq_none_iff.1 (exists_unmatched_iff.1 ⟨position, h⟩)
  have hfault := (ofCode_unmatched hfront back).symm.trans h
  obtain rfl : front.length = position := by simpa using hfault
  exact isLeast_level_neg hfront back

theorem ofCode_eq_unmatched_iff {code : Code} {position : Nat} :
    ofCode code = .error (.unmatched position) ↔
      IsLeast {j | j < code.length ∧ code.level (j + 1) < 0} position := by
  refine ⟨isLeast_of_ofCode, fun hleast => ?_⟩
  have hnone : brackets.depth? code 0 = none := by
    by_contra hsome
    obtain ⟨final, hfinal⟩ := Option.ne_none_iff_exists'.1 hsome
    have hlevel := (depth?_eq_some_iff.1 hfinal).1 (position + 1)
    have hneg := hleast.1.2
    omega
  obtain ⟨position', hfault⟩ := exists_unmatched_iff.2 hnone
  rw [hfault, (isLeast_of_ofCode hfault).unique hleast]

theorem isGreatest_of_ofCode {code : Code} {position : Nat}
    (h : ofCode code = .error (.unclosed position)) :
    IsGreatest {i | brackets.Unclosed code i} position := by
  obtain ⟨depth, hdepth⟩ := exists_unclosed_iff.1 ⟨position, h⟩
  rcases brackets.nested_cases code with hnested | hcut | ⟨front, back, depth, rfl, hback, hfront⟩
  · rw [hnested.depth?_eq] at hdepth
    cases hdepth
  · rw [Brackets.depth?_eq_none_iff.2 hcut] at hdepth
    cases hdepth
  · have hfault := (ofCode_unclosed hfront hback).symm.trans h
    obtain rfl : front.length = position := by simpa using hfault
    exact Brackets.isGreatest_unclosed front hback

theorem ofCode_eq_unclosed_iff {code : Code} {position : Nat} :
    ofCode code = .error (.unclosed position) ↔
      (∀ n, 0 ≤ code.level n) ∧
        IsGreatest {i | code[i]? = some .loopBegin ∧ ∀ n > i, code.level n ≠ code.level i}
          position := by
  simp only [← unclosed_iff_level]
  constructor
  · intro h
    obtain ⟨depth, hdepth⟩ := exists_unclosed_iff.1 ⟨position, h⟩
    have hlevel := (depth?_eq_some_iff.1 hdepth).1
    simp only [Int.natCast_zero, Int.zero_add] at hlevel
    exact ⟨hlevel, isGreatest_of_ofCode h⟩
  · rintro ⟨hlevel, hgreatest⟩
    have hsome : brackets.depth? code 0 ≠ none := by
      rw [depth?_ne_none_iff]
      intro n
      have hn := hlevel n
      omega
    obtain ⟨final, hfinal⟩ := Option.ne_none_iff_exists'.1 hsome
    cases final with
    | zero => exact absurd hgreatest.1 ((Brackets.nested_iff.2 hfinal).not_unclosed position)
    | succ depth =>
      obtain ⟨position', hfault⟩ := exists_unclosed_iff.2 ⟨depth, hfinal⟩
      rw [hfault, (isGreatest_of_ofCode hfault).unique hgreatest]

end Program

open Code Program

/-- **Linking is counting.** A code has a program exactly if the count of opening brackets less
closing ones is never negative and ends at 0. Its table has an entry for each opcode, is its own
inverse, leaves actions where they are, and takes an opening bracket to the first place up to which
as many loops are closed as are opened from the bracket on. Otherwise the fault is the opcode that
makes the count negative, or, if there is none, the last opening bracket after which the count never
is again what it was before. -/
theorem linking_follows_count (code : Code) :
    ((∃ program, ofCode code = .ok program) ↔ (∀ n, 0 ≤ code.level n) ∧ code.balance = 0) ∧
    (∀ program, ofCode code = .ok program →
      program.partners.size = code.length ∧
      (∀ i j, program.partner? i = some j → program.partner? j = some i) ∧
      (∀ i action, code[i]? = some (.act action) → program.partner? i = some i) ∧
      ∀ i, code[i]? = some .loopBegin → ∃ j, program.partner? i = some j ∧
        code[j]? = some .loopEnd ∧
        IsLeast {j | i < j ∧ j < code.length ∧ balance (code.extract i (j + 1)) = 0} j) ∧
    (∀ position, ofCode code = .error (.unmatched position) ↔
      IsLeast {j | j < code.length ∧ code.level (j + 1) < 0} position) ∧
    ∀ position, ofCode code = .error (.unclosed position) ↔
      (∀ n, 0 ≤ code.level n) ∧
        IsGreatest {i | code[i]? = some .loopBegin ∧ ∀ n > i, code.level n ≠ code.level i}
          position := by
  refine ⟨?_, ?_, fun position => ofCode_eq_unmatched_iff, fun position => ofCode_eq_unclosed_iff⟩
  · rw [exists_ofCode_iff_nested, nested_iff_balance]
  · intro program hprogram
    obtain rfl := ofCode_eq_ok_iff.1 hprogram
    refine ⟨?_, fun i j => partner?_symm, fun i action => partner?_act, ?_⟩
    · rw [size_partners, length_code]
    · intro i hi
      obtain ⟨j, hpairs⟩ := exists_pairs_of_loopBegin hi
      exact ⟨j, (partner?_of_pairs hpairs).1, hpairs.getElem?.2, isLeast_of_pairs hpairs⟩

end ByteTape
