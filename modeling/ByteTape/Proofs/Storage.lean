import Mathlib.Logic.Function.Basic
import ByteTape.Layout

/-!
# Storage of the tape

However a tape is changed, its two rays behave as one map from all indices to bytes. A ledger is
that map, with a list of the indices that were ever written. `Holds` ties a tape to its ledger.
Beyond the cells it says how long the rays are: a ray ends at the outermost index that was written
on its side, and a ray that is not empty ends at an index that was written.
-/

namespace ByteTape

/-- One map from all indices to numbers, a pointer, and the indices that were ever written. -/
structure Ledger where
  cell : Int → Nat
  pointer : Int
  written : List Int

namespace Ledger

def blank : Ledger := ⟨fun _ => 0, 0, []⟩

def put (ledger : Ledger) (index : Int) (value : Nat) : Ledger where
  cell := Function.update ledger.cell index value
  pointer := ledger.pointer
  written := index :: ledger.written

theorem cell_put (ledger : Ledger) (index place : Int) (value : Nat) :
    (ledger.put index value).cell place = if place = index then value else ledger.cell place :=
  Function.update_apply ledger.cell index value place

/-- Puts the values at `start`, `start + 1`, …. -/
def putAll (ledger : Ledger) : Int → List UInt8 → Ledger
  | _, [] => ledger
  | start, value :: rest => (ledger.put start value.toNat).putAll (start + 1) rest

def moveTo (ledger : Ledger) (index : Int) : Ledger := { ledger with pointer := index }

/-- The tape has the cells and the pointer of the ledger, and its rays end where it was written. -/
structure Holds (ledger : Ledger) (tape : Tape) : Prop where
  cells : ∀ index, (tape.get index).toNat = ledger.cell index
  pointer : tape.pointer = ledger.pointer
  within : ∀ index ∈ ledger.written,
    -(tape.left.size : Int) ≤ index ∧ index < (tape.right.size : Int)
  left : tape.left.size ≠ 0 → -(tape.left.size : Int) ∈ ledger.written
  right : tape.right.size ≠ 0 → (tape.right.size : Int) - 1 ∈ ledger.written

namespace Holds

variable {ledger : Ledger} {tape : Tape}

theorem start : blank.Holds .empty where
  cells index := by
    rw [Tape.get_empty]
    rfl
  pointer := rfl
  within index hindex := by cases hindex
  left hleft := absurd rfl hleft
  right hright := absurd rfl hright

theorem moveTo (h : ledger.Holds tape) (index : Int) :
    (ledger.moveTo index).Holds (tape.moveTo index) where
  cells place := by
    rw [Tape.get_moveTo]
    exact h.cells place
  pointer := rfl
  within := h.within
  left := h.left
  right := h.right

/-- A ray that a write makes longer ends at the index written. -/
theorem set (h : ledger.Holds tape) (index : Int) (value : UInt8) :
    (ledger.put index value.toNat).Holds (tape.set index value) := by
  have hleft := tape.size_left_set index value
  have hright := tape.size_right_set index value
  refine ⟨?_, ?_, ?_, ?_, ?_⟩
  · intro place
    rw [Tape.get_set, cell_put]
    split
    · rfl
    · exact h.cells place
  · rw [Tape.pointer_set]
    exact h.pointer
  · intro place hplace
    rw [hleft, hright]
    rcases List.mem_cons.1 hplace with rfl | hmem
    · omega
    · have hwithin := h.within place hmem
      omega
  · intro hne
    by_cases hlonger : (tape.left.size : Int) < -index
    · have hend : -((tape.set index value).left.size : Int) = index := by omega
      rw [hend]
      exact List.mem_cons_self
    · have hsame : ((tape.set index value).left.size : Int) = tape.left.size := by omega
      rw [hsame]
      exact List.mem_cons_of_mem index (h.left (by omega))
  · intro hne
    by_cases hlonger : (tape.right.size : Int) < index + 1
    · have hend : ((tape.set index value).right.size : Int) - 1 = index := by omega
      rw [hend]
      exact List.mem_cons_self
    · have hsame : ((tape.set index value).right.size : Int) = tape.right.size := by omega
      rw [hsame]
      exact List.mem_cons_of_mem index (h.right (by omega))

theorem setCurrent (h : ledger.Holds tape) {value : UInt8} {number : Nat}
    (hvalue : value.toNat = number) :
    (ledger.put ledger.pointer number).Holds (tape.setCurrent value) := by
  rw [Tape.setCurrent, h.pointer, ← hvalue]
  exact h.set ledger.pointer value

theorem current (h : ledger.Holds tape) : tape.current.toNat = ledger.cell ledger.pointer := by
  rw [Tape.current, h.pointer]
  exact h.cells ledger.pointer

theorem write (h : ledger.Holds tape) (start : Int) (cells : List UInt8) :
    (ledger.putAll start cells).Holds (tape.write start cells) := by
  induction cells generalizing ledger tape start with
  | nil => exact h
  | cons value cells ih => exact ih (h.set start value) (start + 1)

end Holds

end Ledger

end ByteTape
