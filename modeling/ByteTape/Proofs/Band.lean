import Mathlib.Data.Stream.Init
import ByteTape.Proofs.StructuredRun

/-!
# The band

A tape as it looks from its pointer: the cells behind the pointer, nearest first, and the cells from
the pointer on. Two tapes with the same cells are the same band, whichever cells were written, and a
few moves over known cells compute. Instead of the pointer a band has the lowest index reached and
how far the pointer is above it, so moves above that index do not touch integers.

A band is a device of its own, and `Store.band_bisimulation` says that a store works as its band
does.
-/

namespace ByteTape

open scoped Stream'

@[ext]
structure Band where
  behind : Stream' UInt8
  ahead : Stream' UInt8
  /-- The least index the pointer has been at. -/
  lowest : Int
  /-- How far the pointer is from there. -/
  margin : Nat
  console : Console

namespace Band

def perform : Action → Band → Band
  | .inc, ⟨behind, ahead, lowest, margin, console⟩ =>
    ⟨behind, (ahead.head + 1) :: ahead.tail, lowest, margin, console⟩
  | .dec, ⟨behind, ahead, lowest, margin, console⟩ =>
    ⟨behind, (ahead.head - 1) :: ahead.tail, lowest, margin, console⟩
  | .right, ⟨behind, ahead, lowest, margin, console⟩ =>
    ⟨ahead.head :: behind, ahead.tail, lowest, margin + 1, console⟩
  | .left, ⟨behind, ahead, lowest, 0, console⟩ =>
    ⟨behind.tail, behind.head :: ahead, lowest - 1, 0, console⟩
  | .left, ⟨behind, ahead, lowest, margin + 1, console⟩ =>
    ⟨behind.tail, behind.head :: ahead, lowest, margin, console⟩
  | .read, ⟨behind, ahead, lowest, margin, console⟩ =>
    ⟨behind, console.read.1 :: ahead.tail, lowest, margin, console.read.2⟩
  | .write, ⟨behind, ahead, lowest, margin, console⟩ =>
    ⟨behind, ahead, lowest, margin, console.write ahead.head⟩

def device : Device Band := ⟨perform, fun band => band.ahead.head != 0⟩

end Band

namespace Store

/-- The band of a store whose pointer is not below the lowest index. -/
def band (s : Store) : Band where
  behind := fun n => s.tape.get (s.tape.pointer - 1 - n)
  ahead := fun n => s.tape.get (s.tape.pointer + n)
  lowest := s.lowest
  margin := (s.tape.pointer - s.lowest).toNat
  console := s.console

theorem band_setCurrent (s : Store) (value : UInt8) (console : Console) :
    band ⟨s.tape.setCurrent value, console, s.lowest⟩ =
      ⟨s.band.behind, value :: s.band.ahead.tail, s.band.lowest, s.band.margin, console⟩ := by
  refine Band.ext (funext fun n => ?_) (funext fun n => ?_) rfl ?_ rfl
  · simp only [band, Tape.setCurrent, Tape.pointer_set, Tape.get_set]
    rw [if_neg (by omega)]
  · simp only [band, Tape.setCurrent, Tape.pointer_set, Tape.get_set]
    cases n with
    | zero => exact if_pos (Int.add_zero _)
    | succ n => exact if_neg (by omega)
  · simp only [band, Tape.setCurrent, Tape.pointer_set]

theorem band_moveRight {s : Store} (h : s.lowest ≤ s.tape.pointer) :
    band ⟨s.tape.moveRight, s.console, s.lowest⟩ = s.band.perform .right := by
  refine Band.ext (funext fun n => ?_) (funext fun n => ?_) rfl ?_ rfl
  · cases n with
    | zero =>
      have hindex : s.tape.pointer + 1 - 1 - (0 : Nat) = s.tape.pointer + (0 : Nat) := by omega
      exact (Tape.get_moveTo _ _ _).trans (congrArg s.tape.get hindex)
    | succ n =>
      have hindex : s.tape.pointer + 1 - 1 - (n + 1 : Nat) = s.tape.pointer - 1 - n := by omega
      exact (Tape.get_moveTo _ _ _).trans (congrArg s.tape.get hindex)
  · have hindex : s.tape.pointer + 1 + (n : Int) = s.tape.pointer + (n + 1 : Nat) := by omega
    exact (Tape.get_moveTo _ _ _).trans (congrArg s.tape.get hindex)
  · simp only [band, Tape.moveRight, IndexSpace.wrap_unbounded, Tape.pointer_moveTo, Band.perform]
    omega

theorem band_moveLeft {s : Store} (h : s.lowest ≤ s.tape.pointer) :
    band ⟨s.tape.moveLeft, s.console, min s.lowest (s.tape.pointer - 1)⟩ =
      s.band.perform .left := by
  have hbehind : (band ⟨s.tape.moveLeft, s.console, min s.lowest (s.tape.pointer - 1)⟩).behind =
      s.band.behind.tail := by
    funext n
    have hindex : s.tape.pointer - 1 - 1 - (n : Int) = s.tape.pointer - 1 - (n + 1 : Nat) := by
      omega
    exact (Tape.get_moveTo _ _ _).trans (congrArg s.tape.get hindex)
  have hahead : (band ⟨s.tape.moveLeft, s.console, min s.lowest (s.tape.pointer - 1)⟩).ahead =
      s.band.behind.head :: s.band.ahead := by
    funext n
    cases n with
    | zero =>
      have hindex : s.tape.pointer - 1 + (0 : Nat) = s.tape.pointer - 1 - (0 : Nat) := by omega
      exact (Tape.get_moveTo _ _ _).trans (congrArg s.tape.get hindex)
    | succ n =>
      have hindex : s.tape.pointer - 1 + (n + 1 : Nat) = s.tape.pointer + n := by omega
      exact (Tape.get_moveTo _ _ _).trans (congrArg s.tape.get hindex)
  -- The pointer is on the lowest index or above it, and the lowest index goes along or stays.
  cases hmargin : (s.tape.pointer - s.lowest).toNat with
  | zero =>
    have hleft : s.band.perform .left = ⟨s.band.behind.tail, s.band.behind.head :: s.band.ahead,
        s.lowest - 1, 0, s.console⟩ := by
      simp only [band, hmargin, Band.perform]
    rw [hleft]
    refine Band.ext hbehind hahead ?_ ?_ rfl
    · simp only [band]
      omega
    · simp only [band, Tape.moveLeft, IndexSpace.wrap_unbounded, Tape.pointer_moveTo]
      omega
  | succ margin =>
    have hleft : s.band.perform .left = ⟨s.band.behind.tail, s.band.behind.head :: s.band.ahead,
        s.lowest, margin, s.console⟩ := by
      simp only [band, hmargin, Band.perform]
    rw [hleft]
    refine Band.ext hbehind hahead ?_ ?_ rfl
    · simp only [band]
      omega
    · simp only [band, Tape.moveLeft, IndexSpace.wrap_unbounded, Tape.pointer_moveTo]
      omega

theorem band_head (s : Store) : s.band.ahead.head = s.tape.current :=
  congrArg s.tape.get (Int.add_zero _)

theorem band_perform {s : Store} (h : s.lowest ≤ s.tape.pointer) (action : Action) :
    (s.perform action).band = s.band.perform action := by
  have hhead := band_head s
  cases action with
  | inc =>
    rw [Band.perform, hhead]
    exact band_setCurrent s _ _
  | dec =>
    rw [Band.perform, hhead]
    exact band_setCurrent s _ _
  | left => exact band_moveLeft h
  | right => exact band_moveRight h
  | read => exact band_setCurrent s _ _
  | write =>
    rw [Band.perform, hhead]
    rfl

theorem band_bisimulation :
    device.Bisimulation Band.device fun s b => s.lowest ≤ s.tape.pointer ∧ s.band = b where
  perform action hst := by
    obtain ⟨hlowest, rfl⟩ := hst
    exact ⟨lowest_le_perform hlowest (climbs _ action), band_perform hlowest action⟩
  nonzero hst := by
    obtain ⟨-, rfl⟩ := hst
    exact (congrArg (· != 0) (band_head _)).symm

theorem evaluates_band {s t : Store} {block : Block} {cost : Nat}
    (hlowest : s.lowest ≤ s.tape.pointer) (h : Block.Evaluates device block s cost t) :
    t.lowest ≤ t.tape.pointer ∧ Block.Evaluates Band.device block s.band cost t.band := by
  obtain ⟨b, heval, hlowest', rfl⟩ := h.transport band_bisimulation ⟨hlowest, rfl⟩
  exact ⟨hlowest', heval⟩

theorem exists_evaluates_of_band {s : Store} {block : Block} {cost : Nat} {b : Band}
    (hlowest : s.lowest ≤ s.tape.pointer) (h : Block.Evaluates Band.device block s.band cost b) :
    ∃ t, Block.Evaluates device block s cost t ∧ t.lowest ≤ t.tape.pointer ∧ t.band = b :=
  h.transport band_bisimulation.symm ⟨hlowest, rfl⟩

theorem pointer_band {s : Store} (h : s.lowest ≤ s.tape.pointer) :
    s.band.lowest + s.band.margin = s.tape.pointer := by
  simp only [band]
  omega

/-- A band shows every cell. -/
theorem get_eq_of_band {s t : Store} (hpointer : s.tape.pointer = t.tape.pointer)
    (hbehind : s.band.behind = t.band.behind) (hahead : s.band.ahead = t.band.ahead)
    (index : Int) : s.tape.get index = t.tape.get index := by
  by_cases hindex : s.tape.pointer ≤ index
  · obtain ⟨n, rfl⟩ := Int.exists_add_of_le hindex
    have hcell : s.tape.get (s.tape.pointer + n) = t.tape.get (t.tape.pointer + n) :=
      congrFun hahead n
    rw [hcell, hpointer]
  · obtain ⟨n, hn⟩ := Int.exists_add_of_le (show index ≤ s.tape.pointer - 1 by omega)
    obtain rfl : index = s.tape.pointer - 1 - n := by omega
    have hcell : s.tape.get (s.tape.pointer - 1 - n) = t.tape.get (t.tape.pointer - 1 - n) :=
      congrFun hbehind n
    rw [hcell, hpointer]

end Store

end ByteTape
