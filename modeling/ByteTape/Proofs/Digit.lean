import ByteTape.Operation
import ByteTape.Proofs.Phrase

/-!
# Operations at one digit

The parts of operations that work on a triplet and its neighbour: flag, x and data of a digit, or
the three cells of spacing.
-/

namespace ByteTape

open scoped Stream'
open Phrase
open Block (Takes)

variable {a b : Stream' UInt8} {l : Int} {m : Nat} {c : Console}

namespace Operation

theorem takes_copyData (d : UInt8) :
    Takes Band.device copyData ⟨b, 1 :: 0 :: d :: a, l, m, c⟩ ⟨b, 1 :: d :: d :: a, l, m, c⟩ := by
  have hback : Takes Band.device (drain [2]) ⟨b, d :: d :: 0 :: a, l, m, c⟩
      ⟨b, 0 :: d :: d :: a, l, m, c⟩ := by
    simpa using takes_drain d 0 [d]
  unfold copyData
  calc
    Takes Band.device dec ⟨b, 1 :: 0 :: d :: a, l, m, c⟩ ⟨b, 0 :: 0 :: d :: a, l, m, c⟩ :=
      takes_dec_one
    Takes Band.device (away 2 (drain [-1, -2])) _ ⟨b, d :: d :: 0 :: a, l, m, c⟩ :=
      takes_away (.straight rfl) (takes_drain_back_both d) (.straight rfl)
    Takes Band.device (drain [2]) _ ⟨b, 0 :: d :: d :: a, l, m, c⟩ := hback
    Takes Band.device inc _ ⟨b, 1 :: d :: d :: a, l, m, c⟩ := .straight rfl

/-- A cell that is not 0 as 1. -/
def sign (v : UInt8) : UInt8 := if v = 0 then 0 else 1

theorem takes_normalize (x : UInt8) :
    Takes Band.device normalize ⟨b, 1 :: x :: a, l, m, c⟩ ⟨b, 1 :: sign x :: a, l, m, c⟩ := by
  have htest : Takes Band.device (loop (away (-1) inc ++ clear)) ⟨0 :: b, x :: a, l, m + 1, c⟩
      ⟨sign x :: b, 0 :: a, l, m + 1, c⟩ := by
    by_cases hx : x = 0
    · subst hx
      exact takes_loop_leave rfl
    · rw [sign, if_neg hx]
      have hround : Takes Band.device (away (-1) inc) ⟨0 :: b, x :: a, l, m + 1, c⟩
          ⟨1 :: b, x :: a, l, m + 1, c⟩ := .straight rfl
      exact takes_loop_once (by simpa [Band.device] using hx) (hround.append (takes_clear x)) rfl
  have hback : Takes Band.device (drain [1]) ⟨b, sign x :: 0 :: a, l, m, c⟩
      ⟨b, 0 :: sign x :: a, l, m, c⟩ := by
    simpa using takes_drain (sign x) 0 []
  unfold normalize
  calc
    Takes Band.device dec ⟨b, 1 :: x :: a, l, m, c⟩ ⟨b, 0 :: x :: a, l, m, c⟩ := takes_dec_one
    Takes Band.device (away 1 (loop (away (-1) inc ++ clear))) _ ⟨b, sign x :: 0 :: a, l, m, c⟩ :=
      takes_away (.straight rfl) htest (.straight rfl)
    Takes Band.device (drain [1]) _ ⟨b, 0 :: sign x :: a, l, m, c⟩ := hback
    Takes Band.device inc _ ⟨b, 1 :: sign x :: a, l, m, c⟩ := .straight rfl

theorem sign_add_sign (v w : UInt8) : sign (sign v + sign w) = if v = 0 ∧ w = 0 then 0 else 1 := by
  by_cases hv : v = 0 <;> by_cases hw : w = 0 <;> simp [sign, hv, hw]

theorem takes_testDigit (d f x : UInt8) :
    Takes Band.device testDigit ⟨b, 1 :: 0 :: d :: f :: sign x :: a, l, m, c⟩
      ⟨b, 1 :: (if d = 0 ∧ x = 0 then 0 else 1) :: d :: f :: 0 :: a, l, m, c⟩ := by
  rw [← sign_add_sign]
  unfold testDigit
  calc
    Takes Band.device copyData ⟨b, 1 :: 0 :: d :: f :: sign x :: a, l, m, c⟩
        ⟨b, 1 :: d :: d :: f :: sign x :: a, l, m, c⟩ := takes_copyData d
    Takes Band.device normalize _ ⟨b, 1 :: sign d :: d :: f :: sign x :: a, l, m, c⟩ :=
      takes_normalize d
    Takes Band.device (away 4 (drain [-3])) _
        ⟨b, 1 :: (sign d + sign x) :: d :: f :: 0 :: a, l, m, c⟩ :=
      takes_away (.straight rfl) (takes_drain_back_three (sign x) f d (sign d)) (.straight rfl)
    Takes Band.device normalize _
        ⟨b, 1 :: sign (sign d + sign x) :: d :: f :: 0 :: a, l, m, c⟩ :=
      takes_normalize (sign d + sign x)

theorem takes_shiftDigit (d : UInt8) :
    Takes Band.device shiftDigit ⟨b, 1 :: 0 :: d :: 0 :: 0 :: 0 :: a, l, m, c⟩
      ⟨b, 0 :: 0 :: 0 :: 1 :: 0 :: d :: a, l, m, c⟩ := by
  have hmove : Takes Band.device (drain [3]) ⟨0 :: 1 :: b, d :: 0 :: 0 :: 0 :: a, l, m + 2, c⟩
      ⟨0 :: 1 :: b, 0 :: 0 :: 0 :: d :: a, l, m + 2, c⟩ := by
    simpa [Stream'.cons_append_stream] using takes_drain d 0 [0, 0]
  unfold shiftDigit
  calc
    Takes Band.device (away 2 (drain [3])) ⟨b, 1 :: 0 :: d :: 0 :: 0 :: 0 :: a, l, m, c⟩
        ⟨b, 1 :: 0 :: 0 :: 0 :: 0 :: d :: a, l, m, c⟩ :=
      takes_away (.straight rfl) hmove (.straight rfl)
    Takes Band.device (away 3 inc) _ ⟨b, 1 :: 0 :: 0 :: 1 :: 0 :: d :: a, l, m, c⟩ :=
      .straight rfl
    Takes Band.device dec _ ⟨b, 0 :: 0 :: 0 :: 1 :: 0 :: d :: a, l, m, c⟩ := takes_dec_one

/-- The cell that says whether `v` is 0. -/
def zeroTest (v : UInt8) : UInt8 := if v = 0 then 1 else 0

theorem takes_bump (d : UInt8) :
    Takes Band.device bump ⟨1 :: b, 1 :: d :: a, l, m + 1, c⟩
      ⟨1 :: b, zeroTest (d + 1) :: (d + 1) :: a, l, m + 1, c⟩ := by
  have hback : Takes Band.device (drain [1]) ⟨(d + 1) :: b, (d + 1) :: 0 :: a, l, m + 1, c⟩
      ⟨(d + 1) :: b, 0 :: (d + 1) :: a, l, m + 1, c⟩ := by
    simpa using takes_drain (d + 1) 0 []
  -- The flag is put up for a digit that has wrapped, and a copy of the digit takes it down again.
  have htest :
      Takes Band.device (loop (away 1 dec ++ clear)) ⟨b, (d + 1) :: 1 :: (d + 1) :: a, l, m, c⟩
      ⟨b, 0 :: zeroTest (d + 1) :: (d + 1) :: a, l, m, c⟩ := by
    by_cases hd : d + 1 = 0
    · rw [hd]
      exact takes_loop_leave rfl
    · rw [zeroTest, if_neg hd]
      have hround : Takes Band.device (away 1 dec) ⟨b, (d + 1) :: 1 :: (d + 1) :: a, l, m, c⟩
          ⟨b, (d + 1) :: 0 :: (d + 1) :: a, l, m, c⟩ :=
        takes_away (.straight rfl) takes_dec_one (.straight rfl)
      exact takes_loop_once (by simpa [Band.device] using hd) (hround.append (takes_clear _)) rfl
  have hraise : Takes Band.device (loop (away 1 dec ++ clear) ++ inc)
      ⟨b, (d + 1) :: 1 :: (d + 1) :: a, l, m, c⟩
      ⟨b, 1 :: zeroTest (d + 1) :: (d + 1) :: a, l, m, c⟩ := htest.append (.straight rfl)
  unfold bump
  calc
    Takes Band.device (away 1 inc) ⟨1 :: b, 1 :: d :: a, l, m + 1, c⟩
        ⟨1 :: b, 1 :: (d + 1) :: a, l, m + 1, c⟩ := .straight rfl
    Takes Band.device dec _ ⟨1 :: b, 0 :: (d + 1) :: a, l, m + 1, c⟩ := takes_dec_one
    Takes Band.device (away (-1) dec) _ ⟨0 :: b, 0 :: (d + 1) :: a, l, m + 1, c⟩ :=
      takes_away (.straight rfl) takes_dec_one (.straight rfl)
    Takes Band.device (away 1 (drain [-1, -2])) _
        ⟨(d + 1) :: b, (d + 1) :: 0 :: a, l, m + 1, c⟩ :=
      takes_away (.straight rfl) (takes_drain_back_both (d + 1)) (.straight rfl)
    Takes Band.device (drain [1]) _ ⟨(d + 1) :: b, 0 :: (d + 1) :: a, l, m + 1, c⟩ := hback
    Takes Band.device inc _ ⟨(d + 1) :: b, 1 :: (d + 1) :: a, l, m + 1, c⟩ := .straight rfl
    Takes Band.device (away (-1) (loop (away 1 dec ++ clear) ++ inc)) _
        ⟨1 :: b, zeroTest (d + 1) :: (d + 1) :: a, l, m + 1, c⟩ :=
      takes_away (.straight rfl) hraise (.straight rfl)

/-- At a flag that was not lowered there is no carry. -/
theorem takes_raiseFlag_one :
    Takes Band.device raiseFlag ⟨1 :: b, 0 :: a, l, m + 1, c⟩ ⟨1 :: b, 0 :: a, l, m + 1, c⟩ := by
  have htest : Takes Band.device (loop (away 1 inc ++ clear)) ⟨b, 0 :: 0 :: a, l, m, c⟩
      ⟨b, 0 :: 0 :: a, l, m, c⟩ := takes_loop_leave rfl
  have hraise : Takes Band.device (dec ++ loop (away 1 inc ++ clear) ++ inc)
      ⟨b, 1 :: 0 :: a, l, m, c⟩ ⟨b, 1 :: 0 :: a, l, m, c⟩ :=
    (takes_dec_one.append htest).append (.straight rfl)
  exact takes_away (.straight rfl) hraise (.straight rfl)

theorem takes_raiseFlag_zero :
    Takes Band.device raiseFlag ⟨0 :: b, 0 :: a, l, m + 1, c⟩ ⟨1 :: b, 1 :: a, l, m + 1, c⟩ := by
  have hround : Takes Band.device (away 1 inc) ⟨b, (0 - 1) :: 0 :: a, l, m, c⟩
      ⟨b, (0 - 1) :: 1 :: a, l, m, c⟩ := .straight rfl
  have htest : Takes Band.device (loop (away 1 inc ++ clear)) ⟨b, (0 - 1) :: 0 :: a, l, m, c⟩
      ⟨b, 0 :: 1 :: a, l, m, c⟩ :=
    takes_loop_once rfl (hround.append (takes_clear _)) rfl
  have hraise : Takes Band.device (dec ++ loop (away 1 inc ++ clear) ++ inc)
      ⟨b, 0 :: 0 :: a, l, m, c⟩ ⟨b, 1 :: 1 :: a, l, m, c⟩ := by
    have hdec : Takes Band.device dec ⟨b, 0 :: 0 :: a, l, m, c⟩ ⟨b, (0 - 1) :: 0 :: a, l, m, c⟩ :=
      .straight rfl
    exact (hdec.append htest).append (.straight rfl)
  exact takes_away (.straight rfl) hraise (.straight rfl)

theorem takes_findEnd_one :
    Takes Band.device findEnd ⟨1 :: b, 0 :: a, l, m + 1, c⟩ ⟨1 :: b, 0 :: a, l, m + 1, c⟩ := by
  have hround :
      Takes Band.device (away 1 dec) ⟨b, 1 :: 1 :: a, l, m, c⟩ ⟨b, 1 :: 0 :: a, l, m, c⟩ :=
    takes_away (.straight rfl) takes_dec_one (.straight rfl)
  have htest : Takes Band.device (loop (away 1 dec ++ dec)) ⟨b, 1 :: 1 :: a, l, m, c⟩
      ⟨b, 0 :: 0 :: a, l, m, c⟩ :=
    takes_loop_once rfl (hround.append takes_dec_one) rfl
  have hraise : Takes Band.device (loop (away 1 dec ++ dec) ++ inc) ⟨b, 1 :: 1 :: a, l, m, c⟩
      ⟨b, 1 :: 0 :: a, l, m, c⟩ := htest.append (.straight rfl)
  have hinc : Takes Band.device inc ⟨1 :: b, 0 :: a, l, m + 1, c⟩ ⟨1 :: b, 1 :: a, l, m + 1, c⟩ :=
    .straight rfl
  exact hinc.append (takes_away (.straight rfl) hraise (.straight rfl))

theorem takes_findEnd_zero :
    Takes Band.device findEnd ⟨0 :: b, 0 :: a, l, m + 1, c⟩ ⟨1 :: b, 1 :: a, l, m + 1, c⟩ := by
  have htest : Takes Band.device (loop (away 1 dec ++ dec)) ⟨b, 0 :: 1 :: a, l, m, c⟩
      ⟨b, 0 :: 1 :: a, l, m, c⟩ := takes_loop_leave rfl
  have hraise : Takes Band.device (loop (away 1 dec ++ dec) ++ inc) ⟨b, 0 :: 1 :: a, l, m, c⟩
      ⟨b, 1 :: 1 :: a, l, m, c⟩ := htest.append (.straight rfl)
  have hinc : Takes Band.device inc ⟨0 :: b, 0 :: a, l, m + 1, c⟩ ⟨0 :: b, 1 :: a, l, m + 1, c⟩ :=
    .straight rfl
  exact hinc.append (takes_away (.straight rfl) hraise (.straight rfl))

theorem takes_borrowDigit (d f : UInt8) :
    Takes Band.device borrowDigit ⟨1 :: b, 1 :: d :: f :: 0 :: a, l, m + 1, c⟩
      ⟨1 :: b, 0 :: (d - 1) :: f :: zeroTest d :: a, l, m + 1, c⟩ := by
  have htest : Takes Band.device (loop (clear ++ away 3 dec))
      ⟨1 :: b, d :: d :: f :: 1 :: a, l, m + 1, c⟩
      ⟨1 :: b, 0 :: d :: f :: zeroTest d :: a, l, m + 1, c⟩ := by
    by_cases hd : d = 0
    · subst hd
      exact takes_loop_leave rfl
    · rw [zeroTest, if_neg hd]
      have hlower : Takes Band.device (away 3 dec) ⟨1 :: b, 0 :: d :: f :: 1 :: a, l, m + 1, c⟩
          ⟨1 :: b, 0 :: d :: f :: 0 :: a, l, m + 1, c⟩ :=
        takes_away (.straight rfl) takes_dec_one (.straight rfl)
      exact takes_loop_once (by simpa [Band.device] using hd) ((takes_clear d).append hlower) rfl
  unfold borrowDigit
  calc
    Takes Band.device dec ⟨1 :: b, 1 :: d :: f :: 0 :: a, l, m + 1, c⟩
        ⟨1 :: b, 0 :: d :: f :: 0 :: a, l, m + 1, c⟩ := takes_dec_one
    Takes Band.device (away (-1) copyData) _ ⟨1 :: b, d :: d :: f :: 0 :: a, l, m + 1, c⟩ :=
      takes_away (.straight rfl) (takes_copyData d) (.straight rfl)
    Takes Band.device (away 3 inc) _ ⟨1 :: b, d :: d :: f :: 1 :: a, l, m + 1, c⟩ := .straight rfl
    Takes Band.device (loop (clear ++ away 3 dec)) _
        ⟨1 :: b, 0 :: d :: f :: zeroTest d :: a, l, m + 1, c⟩ := htest
    Takes Band.device (away 1 dec) _ ⟨1 :: b, 0 :: (d - 1) :: f :: zeroTest d :: a, l, m + 1, c⟩ :=
      .straight rfl

end Operation

end ByteTape
