import Mathlib.Data.UInt
import ByteTape.Numeral

/-!
# Digit lists

Adding one to digits and taking one away, least digit first, and what becomes of the number denoted
and of the number of digits.
-/

namespace ByteTape

/-- One more. The list grows if all digits are at their end. -/
def carried : List UInt8 → List UInt8
  | [] => [1]
  | d :: ds => if d + 1 = 0 then 0 :: carried ds else (d + 1) :: ds

/-- One less, for digits that are not all 0. -/
def borrowed : List UInt8 → List UInt8
  | [] => []
  | d :: ds => if d = 0 then 255 :: borrowed ds else (d - 1) :: ds

/-- One less, or the same digits if all are 0. -/
def lowered (digits : List UInt8) : List UInt8 :=
  if digits.all (· == 0) then digits else borrowed digits

/-- The number that digits denote. -/
def digitsValue (digits : List UInt8) : Nat :=
  digits.foldr (fun digit rest => digit.toNat + Numeral.base * rest) 0

theorem Numeral.value_eq (numeral : Numeral) : numeral.value = digitsValue numeral.digits := rfl

@[simp]
theorem digitsValue_nil : digitsValue [] = 0 := rfl

@[simp]
theorem digitsValue_cons (d : UInt8) (ds : List UInt8) :
    digitsValue (d :: ds) = d.toNat + 256 * digitsValue ds := rfl

theorem digitsValue_lt (ds : List UInt8) : digitsValue ds < 256 ^ ds.length := by
  induction ds with
  | nil => exact Nat.one_pos
  | cons d ds ih =>
    have hd := d.toNat_lt
    rw [digitsValue_cons, List.length_cons, Nat.pow_succ]
    omega

theorem digitsValue_eq_zero_iff (ds : List UInt8) :
    digitsValue ds = 0 ↔ ds.all (· == 0) = true := by
  induction ds with
  | nil => simp
  | cons d ds ih =>
    have hd : d.toNat = 0 ↔ d = 0 := UInt8.toNat_inj (b := 0)
    rw [digitsValue_cons, List.all_cons, Bool.and_eq_true, beq_iff_eq, ← ih, ← hd]
    omega

theorem toNat_add_one {d : UInt8} (h : d + 1 ≠ 0) : (d + 1).toNat = d.toNat + 1 := by
  have hd := d.toNat_lt
  have hsum : (d + 1).toNat = (d.toNat + 1) % 256 := UInt8.toNat_add d 1
  have hne : (d + 1).toNat ≠ 0 := fun hzero => h (UInt8.toNat_inj.1 hzero)
  omega

theorem toNat_of_add_one_eq_zero {d : UInt8} (h : d + 1 = 0) : d.toNat = 255 := by
  have hd := d.toNat_lt
  have hsum : (d + 1).toNat = (d.toNat + 1) % 256 := UInt8.toNat_add d 1
  rw [h] at hsum
  have hzero : (0 : UInt8).toNat = 0 := rfl
  omega

theorem digitsValue_carried (ds : List UInt8) : digitsValue (carried ds) = digitsValue ds + 1 := by
  induction ds with
  | nil => rfl
  | cons d ds ih =>
    by_cases hd : d + 1 = 0
    · have hdigit := toNat_of_add_one_eq_zero hd
      rw [carried, if_pos hd, digitsValue_cons, digitsValue_cons, ih, hdigit, UInt8.toNat_zero]
      omega
    · rw [carried, if_neg hd, digitsValue_cons, digitsValue_cons, toNat_add_one hd]
      omega

/-- Digits get one more exactly if all of them wrap. -/
theorem length_carried (ds : List UInt8) :
    (carried ds).length =
      if digitsValue ds + 1 = 256 ^ ds.length then ds.length + 1 else ds.length := by
  induction ds with
  | nil => rfl
  | cons d ds ih =>
    have hvalue := digitsValue_lt ds
    have hdigit := d.toNat_lt
    rw [List.length_cons, Nat.pow_succ, digitsValue_cons]
    by_cases hd : d + 1 = 0
    · have hwrap := toNat_of_add_one_eq_zero hd
      rw [carried, if_pos hd, List.length_cons, ih]
      by_cases hall : digitsValue ds + 1 = 256 ^ ds.length
      · rw [if_pos hall, if_pos (by omega)]
      · rw [if_neg hall, if_neg (by omega)]
    · have hsum := toNat_add_one hd
      have hlt := (d + 1).toNat_lt
      rw [carried, if_neg hd, if_neg (by omega), List.length_cons]

theorem eq_last_of_add_one_eq_zero {d : UInt8} (h : d + 1 = 0) : d = 255 :=
  UInt8.toNat_inj.1 (toNat_of_add_one_eq_zero h)

theorem carried_of_all_last {ds : List UInt8} (h : ds.all (· == 255) = true) :
    carried ds = List.replicate ds.length 0 ++ [1] := by
  induction ds with
  | nil => rfl
  | cons d ds ih =>
    rw [List.all_cons, Bool.and_eq_true, beq_iff_eq] at h
    obtain ⟨rfl, hrest⟩ := h
    rw [carried, if_pos (by decide), ih hrest, List.length_cons, List.replicate_succ, List.cons_append]

theorem length_carried_of_not_all_last {ds : List UInt8} (h : ds.all (· == 255) = false) :
    (carried ds).length = ds.length := by
  induction ds with
  | nil => cases h
  | cons d ds ih =>
    by_cases hd : d + 1 = 0
    · rw [List.all_cons, eq_last_of_add_one_eq_zero hd, beq_self_eq_true, Bool.true_and] at h
      rw [carried, if_pos hd, List.length_cons, ih h, List.length_cons]
    · rw [carried, if_neg hd, List.length_cons, List.length_cons]

theorem digitsValue_borrowed {ds : List UInt8} (h : digitsValue ds ≠ 0) :
    digitsValue (borrowed ds) = digitsValue ds - 1 := by
  induction ds with
  | nil => exact absurd rfl h
  | cons d ds ih =>
    by_cases hd : d = 0
    · subst hd
      rw [digitsValue_cons, UInt8.toNat_zero] at h
      have hrest : digitsValue ds ≠ 0 := by omega
      rw [borrowed, if_pos rfl, digitsValue_cons, digitsValue_cons, ih hrest, UInt8.toNat_zero]
      have hlast : (255 : UInt8).toNat = 255 := rfl
      omega
    · have hpos : d.toNat ≠ 0 := fun hzero => hd (UInt8.toNat_inj.1 hzero)
      have hle : (1 : UInt8) ≤ d := UInt8.le_iff_toNat_le.2 (Nat.one_le_iff_ne_zero.2 hpos)
      have hpred : (d - 1).toNat = d.toNat - 1 := UInt8.toNat_sub_of_le d 1 hle
      rw [borrowed, if_neg hd, digitsValue_cons, digitsValue_cons, hpred]
      omega

@[simp]
theorem length_borrowed (ds : List UInt8) : (borrowed ds).length = ds.length := by
  induction ds with
  | nil => rfl
  | cons d ds ih =>
    rw [borrowed]
    split <;> simp [ih]

@[simp]
theorem length_lowered (ds : List UInt8) : (lowered ds).length = ds.length := by
  unfold lowered
  split
  · rfl
  · exact length_borrowed ds

theorem digitsValue_lowered (ds : List UInt8) : digitsValue (lowered ds) = digitsValue ds - 1 := by
  unfold lowered
  split <;> rename_i hzero
  · rw [(digitsValue_eq_zero_iff ds).2 hzero]
  · apply digitsValue_borrowed
    intro hvalue
    exact hzero ((digitsValue_eq_zero_iff ds).1 hvalue)

theorem digitsValue_map_zero (ds : List UInt8) : digitsValue (ds.map fun _ => 0) = 0 := by
  rw [digitsValue_eq_zero_iff]
  simp

/-- At least one digit. -/
structure Chain where
  first : UInt8
  rest : List UInt8
  deriving DecidableEq

namespace Chain

def digits (chain : Chain) : List UInt8 := chain.first :: chain.rest

def zero : Chain := ⟨0, []⟩

def isZero (chain : Chain) : Bool := chain.digits.all (· == 0)

def carry : Chain → Chain
  | ⟨d, ds⟩ => if d + 1 = 0 then ⟨0, carried ds⟩ else ⟨d + 1, ds⟩

def borrow : Chain → Chain
  | ⟨d, ds⟩ => if d = 0 then ⟨255, borrowed ds⟩ else ⟨d - 1, ds⟩

/-- A byte in as many digits as before. -/
def load (byte : UInt8) (chain : Chain) : Chain := ⟨byte, chain.rest.map fun _ => 0⟩

theorem digits_carry (chain : Chain) : chain.carry.digits = carried chain.digits := by
  obtain ⟨d, ds⟩ := chain
  by_cases hd : d + 1 = 0 <;> simp [carry, digits, carried, hd]

theorem digits_borrow (chain : Chain) : chain.borrow.digits = borrowed chain.digits := by
  obtain ⟨d, ds⟩ := chain
  by_cases hd : d = 0 <;> simp [borrow, digits, borrowed, hd]

@[simp]
theorem length_load (byte : UInt8) (chain : Chain) :
    (chain.load byte).digits.length = chain.digits.length := by
  rw [digits, load, List.length_cons, List.length_map]
  rfl

theorem digits_load (byte : UInt8) (chain : Chain) :
    (chain.load byte).digits = byte :: List.replicate (chain.digits.length - 1) 0 := by
  rw [digits, load, List.map_const', digits, List.length_cons, Nat.add_sub_cancel]

theorem toNat_first (chain : Chain) : chain.first.toNat = digitsValue chain.digits % 256 := by
  have hfirst := chain.first.toNat_lt
  rw [digits, digitsValue_cons]
  omega

theorem digits_lowered (chain : Chain) :
    (if chain.isZero then chain else chain.borrow).digits = lowered chain.digits := by
  rw [lowered, apply_ite digits, digits_borrow]
  rfl

end Chain

end ByteTape
