import Mathlib.Algebra.BigOperators.Fin
import Mathlib.Data.List.DropRight
import ByteTape.Proofs.Digits

/-!
# Digits and words

A number is converted to a word from its top digit down. A word is moved up by a digit only if
nothing is lost, so the conversion fails exactly if the number does not fit, however many zeros
stand above it. In the other direction a number gets as few digits as will do.
-/

namespace ByteTape

/-- Each digit counts by its power of the base. -/
theorem digitsValue_eq_sum (digits : List UInt8) :
    digitsValue digits =
      ∑ i : Fin digits.length, (digits.get i).toNat * 256 ^ (i : Nat) := by
  induction digits with
  | nil => rfl
  | cons d ds ih =>
    have hstep : ∀ i : Fin ds.length, (ds.get i).toNat * 256 ^ ((i : Nat) + 1) =
        256 * ((ds.get i).toNat * 256 ^ (i : Nat)) := by
      intro i
      rw [Nat.pow_succ', Nat.mul_left_comm]
    calc digitsValue (d :: ds)
        = d.toNat * 256 ^ 0 + ∑ i : Fin ds.length, (ds.get i).toNat * 256 ^ ((i : Nat) + 1) := by
          simp only [hstep, ← Finset.mul_sum, ← ih, Nat.pow_zero, Nat.mul_one, digitsValue_cons]
      _ = ∑ i : Fin (ds.length + 1), ((d :: ds).get i).toNat * 256 ^ (i : Nat) := by
          rw [Fin.sum_univ_succ]
          rfl

/-- There is a digit, and the top one is not 0 unless it is the only one. -/
def IsShortest (digits : List UInt8) : Prop :=
  digits ≠ [] ∧ (digits.getLast? = some 0 → digits = [0])

namespace Numeral

/-! ### Words -/

/-- A word that was moved up by a digit has room for it. -/
theorem shiftIn_eq (digit : UInt8) (word : Nat) :
    shiftIn digit word =
      if 256 * word < 2 ^ 128 then some (digit.toNat + 256 * word) else none := by
  have hor : word * 256 ||| digit.toNat = digit.toNat + 256 * word := by
    have hsum := Nat.shiftLeft_add_eq_or_of_lt (i := 8) digit.toNat_lt word
    rw [Nat.shiftLeft_eq] at hsum
    rw [← hsum]
    omega
  unfold shiftIn
  rw [show base = 256 from rfl, hor, Nat.mul_comm word]
  rfl

theorem word?_cons (start : Int) (d : UInt8) (ds : List UInt8) :
    word? ⟨start, d :: ds⟩ = (word? ⟨start, ds⟩).bind (shiftIn d) := rfl

theorem word?_mk (start : Int) (digits : List UInt8) :
    word? ⟨start, digits⟩ =
      if digitsValue digits < 2 ^ 128 then some (digitsValue digits) else none := by
  induction digits with
  | nil => rfl
  | cons d ds ih =>
    have hdigit := d.toNat_lt
    rw [word?_cons, ih, digitsValue_cons]
    by_cases hrest : digitsValue ds < 2 ^ 128
    · rw [if_pos hrest, Option.bind_some, shiftIn_eq]
      -- The bound is a multiple of the base, so the digit itself never passes it.
      by_cases hshift : 256 * digitsValue ds < 2 ^ 128
      · rw [if_pos hshift, if_pos (by omega)]
      · rw [if_neg hshift, if_neg (by omega)]
    · rw [if_neg hrest, Option.bind_none, if_neg (by omega)]

theorem word?_eq (numeral : Numeral) :
    numeral.word? = if numeral.value < 2 ^ 128 then some numeral.value else none :=
  word?_mk numeral.start numeral.digits

/-! ### Shortest digits -/

theorem digitsOf_toNat (digit : UInt8) : digitsOf digit.toNat = [digit] := by
  have hdigit : digit.toNat < base := digit.toNat_lt
  rw [digitsOf, if_pos hdigit, UInt8.ofNat_toNat]

theorem digitsOf_add (digit : UInt8) {rest : Nat} (h : rest ≠ 0) :
    digitsOf (digit.toNat + 256 * rest) = digit :: digitsOf rest := by
  have hdigit := digit.toNat_lt
  have hlow : (digit.toNat + 256 * rest) % 256 = digit.toNat := by omega
  have hhigh : (digit.toNat + 256 * rest) / 256 = rest := by omega
  rw [digitsOf, show base = 256 from rfl, if_neg (by omega), hlow, hhigh, UInt8.ofNat_toNat]

/-- A number is a digit, or a digit below a number that is not 0. -/
theorem digit_cases (value : Nat) :
    ∃ digit : UInt8, value = digit.toNat ∨
      ∃ rest, rest ≠ 0 ∧ rest < value ∧ value = digit.toNat + 256 * rest := by
  refine ⟨UInt8.ofNat value, ?_⟩
  rw [UInt8.toNat_ofNat']
  by_cases hvalue : value < 256
  · left
    omega
  · right
    refine ⟨value / 256, ?_⟩
    omega

theorem digitsOf_ne_nil (value : Nat) : digitsOf value ≠ [] := by
  rw [digitsOf]
  split <;> exact List.cons_ne_nil _ _

theorem digitsValue_digitsOf (value : Nat) : digitsValue (digitsOf value) = value := by
  induction value using Nat.strong_induction_on with
  | _ value ih =>
  obtain ⟨digit, rfl | ⟨rest, hrest, hlt, rfl⟩⟩ := digit_cases value
  · rw [digitsOf_toNat, digitsValue_cons, digitsValue_nil, Nat.mul_zero, Nat.add_zero]
  · rw [digitsOf_add digit hrest, digitsValue_cons, ih rest hlt]

theorem length_digitsOf_le {value count : Nat} (h : value < 256 ^ (count + 1)) :
    (digitsOf value).length ≤ count + 1 := by
  induction count generalizing value with
  | zero =>
    have hvalue : value < base := h
    rw [digitsOf, if_pos hvalue, List.length_singleton]
  | succ count ih =>
    obtain ⟨digit, rfl | ⟨rest, hrest, -, rfl⟩⟩ := digit_cases value
    · rw [digitsOf_toNat, List.length_singleton]
      omega
    · rw [digitsOf_add digit hrest, List.length_cons]
      apply Nat.succ_le_succ
      apply ih
      rw [Nat.pow_succ] at h
      omega

/-- Unless all digits are 0, dropping zeros from the top stops before the first digit. -/
theorem rdropWhile_cons {d : UInt8} {ds : List UInt8} (h : (d :: ds).all (· == 0) = false) :
    (d :: ds).rdropWhile (· == 0) = d :: ds.rdropWhile (· == 0) := by
  rw [List.rdropWhile, List.reverse_cons, List.dropWhile_append]
  split
  · rename_i hempty
    have hnil : ds.reverse.dropWhile (· == 0) = [] := List.isEmpty_iff.1 hempty
    have hds : ds.rdropWhile (· == 0) = [] := by rw [List.rdropWhile, hnil, List.reverse_nil]
    have hzero : ds.all (· == 0) = true := List.all_eq_true.2 (List.rdropWhile_eq_nil_iff.1 hds)
    have hd : ¬(d == 0) = true := by
      intro hd
      rw [List.all_cons, hd, hzero] at h
      cases h
    have hkeep : [d].dropWhile (· == 0) = [d] := List.dropWhile_cons_of_neg hd
    rw [hkeep, hds, List.reverse_singleton]
  · rw [List.reverse_append, List.reverse_singleton, List.singleton_append, List.rdropWhile]

/-- The digits of a number are those that denote it without zeros at the top. -/
theorem digitsOf_digitsValue (d : UInt8) (ds : List UInt8) :
    digitsOf (digitsValue (d :: ds)) = d :: ds.rdropWhile (· == 0) := by
  induction ds generalizing d with
  | nil =>
    rw [digitsValue_cons, digitsValue_nil, Nat.mul_zero, Nat.add_zero, digitsOf_toNat,
      List.rdropWhile_nil]
  | cons e es ih =>
    by_cases hzero : digitsValue (e :: es) = 0
    · have hall := (digitsValue_eq_zero_iff (e :: es)).1 hzero
      rw [digitsValue_cons d, hzero, Nat.mul_zero, Nat.add_zero, digitsOf_toNat,
        List.rdropWhile_eq_nil_iff.2 (List.all_eq_true.1 hall)]
    · have hnot : (e :: es).all (· == 0) = false := by
        rw [Bool.eq_false_iff]
        exact fun hall => hzero ((digitsValue_eq_zero_iff (e :: es)).2 hall)
      rw [digitsValue_cons d, digitsOf_add d hzero, ih e, rdropWhile_cons hnot]

theorem isShortest_digitsOf (value : Nat) : IsShortest (digitsOf value) := by
  refine ⟨digitsOf_ne_nil value, ?_⟩
  obtain ⟨d, ds, hdigits⟩ := List.exists_cons_of_ne_nil (digitsOf_ne_nil value)
  -- The digits of a number denote it, so nothing can be left out at their top.
  have hkept : ds.rdropWhile (· == 0) = ds := by
    have hagain := digitsOf_digitsValue d ds
    rw [← hdigits, digitsValue_digitsOf, hdigits] at hagain
    exact (List.cons.inj hagain).2.symm
  rw [hdigits]
  intro hlast
  by_cases hds : ds = []
  · rw [hds, List.getLast?_singleton] at hlast
    rw [hds, Option.some.inj hlast]
  · rw [List.getLast?_cons_of_ne_nil hds, List.getLast?_eq_some_getLast hds] at hlast
    have hne := List.rdropWhile_eq_self_iff.1 hkept hds
    exact absurd (beq_iff_eq.2 (Option.some.inj hlast)) hne

end Numeral

/-- **Conversion is exact up to the size of a word.** Digits denote the sum of each digit times its
power of 256, and give that sum as a word exactly if it is below 2 to the 128. A word has from 1 to
16 digits, without a 0 at the top unless it is the only digit, and they give the word back. Any
other digits that give the word are these with zeros on top. -/
theorem words_convert_exactly :
    (∀ numeral : Numeral,
      numeral.value = ∑ i : Fin numeral.digits.length,
        (numeral.digits.get i).toNat * 256 ^ (i : Nat) ∧
      numeral.word? = if numeral.value < 2 ^ 128 then some numeral.value else none) ∧
    (∀ value < 2 ^ 128,
      1 ≤ (Numeral.digitsOf value).length ∧ (Numeral.digitsOf value).length ≤ 16 ∧
      IsShortest (Numeral.digitsOf value) ∧
      ∀ start, (Numeral.ofNat start value).word? = some value) ∧
    ∀ (start : Int) (d : UInt8) (ds : List UInt8) (value : Nat),
      Numeral.word? ⟨start, d :: ds⟩ = some value →
      Numeral.digitsOf value = d :: ds.rdropWhile (· == 0) := by
  refine ⟨?_, ?_, ?_⟩
  · intro numeral
    exact ⟨digitsValue_eq_sum numeral.digits, numeral.word?_eq⟩
  · intro value hvalue
    have hword : ∀ start, (Numeral.ofNat start value).value = value := by
      intro start
      exact Numeral.digitsValue_digitsOf value
    refine ⟨?_, ?_, Numeral.isShortest_digitsOf value, ?_⟩
    · exact List.length_pos_iff.2 (Numeral.digitsOf_ne_nil value)
    · apply Numeral.length_digitsOf_le
      exact hvalue
    · intro start
      rw [Numeral.word?_eq, hword, if_pos hvalue]
  · intro start d ds value hvalue
    rw [Numeral.word?_eq] at hvalue
    split at hvalue
    · rw [← Option.some.inj hvalue]
      exact Numeral.digitsOf_digitsValue d ds
    · cases hvalue

end ByteTape
