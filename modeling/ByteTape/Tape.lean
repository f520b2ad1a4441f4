import ByteTape.IndexSpace

/-!
# The tape

A tape is a row of bytes, infinite to both sides, with a pointer. It is held as two rays that meet
between the indices -1 and 0. A ray grows when a slot beyond its end is written, also with 0, and
never when a slot is read, so a tape knows the range of indices it was written in. `get_set` says
that the two rays together behave as one map from indices to bytes.

Indices are integers. In memory they are words, and rays are far shorter than the range of words, so
only moves of the pointer can leave that range: they are computed in an index space. A tape that
`Fits` is one that can be held in memory, and its moves are the same in both spaces unless they go
over an end of the range (`moveLeft_word`, `moveRight_word`).
-/

namespace ByteTape

/-- Bytes in the slots 0, 1, 2, …, all 0 from the end of `cells` on. -/
structure Ray where
  cells : Array UInt8
  deriving DecidableEq, Repr

namespace Ray

def empty : Ray := ⟨#[]⟩

def size (ray : Ray) : Nat := ray.cells.size

def get (ray : Ray) (slot : Nat) : UInt8 := ray.cells.getD slot 0

def set (ray : Ray) (slot : Nat) (value : UInt8) : Ray :=
  if h : slot < ray.cells.size then
    ⟨ray.cells.set slot value h⟩
  else
    ⟨(ray.cells ++ Array.replicate (slot - ray.cells.size) 0).push value⟩

@[simp]
theorem get_empty (slot : Nat) : empty.get slot = 0 := by
  simp [empty, get]

theorem get_of_size_le {ray : Ray} {slot : Nat} (h : ray.size ≤ slot) : ray.get slot = 0 := by
  simp [get, Array.getElem?_eq_none (show ray.cells.size ≤ slot from h)]

@[simp]
theorem size_set (ray : Ray) (slot : Nat) (value : UInt8) :
    (ray.set slot value).size = max ray.size (slot + 1) := by
  unfold set size
  split
  · simp only [Array.size_set]
    omega
  · simp only [Array.size_push, Array.size_append, Array.size_replicate]
    omega

theorem get_set (ray : Ray) (slot place : Nat) (value : UInt8) :
    (ray.set slot value).get place = if place = slot then value else ray.get place := by
  unfold set get
  simp only [Array.getD_eq_getD_getElem?]
  split
  · rename_i h
    rw [Array.getElem?_set]
    by_cases hp : place = slot
    · simp [hp]
    · simp [hp, Ne.symm hp]
  · rename_i h
    rw [Array.getElem?_push, Array.getElem?_append, Array.size_append, Array.size_replicate]
    have hend : ray.cells.size + (slot - ray.cells.size) = slot := by omega
    rw [hend]
    by_cases hp : place = slot
    · simp [hp]
    · simp only [hp, if_false]
      by_cases hin : place < ray.cells.size
      · simp [hin]
      · rw [if_neg hin, Array.getElem?_eq_none (by omega : ray.cells.size ≤ place),
          Array.getElem?_replicate]
        split <;> rfl

end Ray

/-- A range of indices, both ends included; it is empty when `high` is below `low`. -/
structure Window where
  low : Int
  high : Int
  deriving DecidableEq, Repr

namespace Window

def indices (window : Window) : List Int :=
  (List.range (window.high - window.low + 1).toNat).map fun (offset : Nat) => window.low + offset

/-- The least range that holds both. -/
def hull (a b : Window) : Window := ⟨min a.low b.low, max a.high b.high⟩

theorem mem_indices {window : Window} {index : Int} :
    index ∈ window.indices ↔ window.low ≤ index ∧ index ≤ window.high := by
  simp only [indices, List.mem_map, List.mem_range]
  constructor
  · rintro ⟨offset, hlt, rfl⟩
    omega
  · rintro ⟨hlow, hhigh⟩
    exact ⟨(index - window.low).toNat, by omega, by omega⟩

end Window

/-- Index `n` is slot `n` of `right`, and index `-1 - n` is slot `n` of `left`. -/
structure Tape where
  right : Ray
  left : Ray
  pointer : Int
  deriving Repr

namespace Tape

def empty : Tape := ⟨.empty, .empty, 0⟩

instance : Inhabited Tape := ⟨empty⟩

def get (tape : Tape) : Int → UInt8
  | .ofNat slot => tape.right.get slot
  | .negSucc slot => tape.left.get slot

def set : Tape → Int → UInt8 → Tape
  | ⟨right, left, pointer⟩, .ofNat slot, value => ⟨right.set slot value, left, pointer⟩
  | ⟨right, left, pointer⟩, .negSucc slot, value => ⟨right, left.set slot value, pointer⟩

def moveTo (tape : Tape) (index : Int) : Tape := { tape with pointer := index }

/-- The byte under the pointer. -/
def current (tape : Tape) : UInt8 := tape.get tape.pointer

def setCurrent (tape : Tape) (value : UInt8) : Tape := tape.set tape.pointer value

def increment (tape : Tape) : Tape := tape.setCurrent (tape.current + 1)

def decrement (tape : Tape) : Tape := tape.setCurrent (tape.current - 1)

def moveLeft [IndexSpace] (tape : Tape) : Tape := tape.moveTo (IndexSpace.wrap (tape.pointer - 1))

def moveRight [IndexSpace] (tape : Tape) : Tape := tape.moveTo (IndexSpace.wrap (tape.pointer + 1))

/-- Writes `cells` to `start`, `start + 1`, …. -/
def write (tape : Tape) : Int → List UInt8 → Tape
  | _, [] => tape
  | start, value :: rest => (tape.set start value).write (start + 1) rest

def ofCells (start : Int) (cells : List UInt8) (pointer : Int) : Tape :=
  (empty.write start cells).moveTo pointer

/-- The range that was written in, widened to reach the seam between -1 and 0. -/
def written? (tape : Tape) : Option Window :=
  if tape.left.size = 0 ∧ tape.right.size = 0 then none
  else some ⟨-(tape.left.size : Int), (tape.right.size : Int) - 1⟩

/-- The least range that holds index 0, the pointer, and every index that was written. -/
def extent (tape : Tape) : Window :=
  let origin : Window := ⟨min 0 tape.pointer, max 0 tape.pointer⟩
  match tape.written? with
  | some window => origin.hull window
  | none => origin

/-- Two tapes are the same when they agree in pointer and in every cell, whichever cells were
written. Beyond both extents all cells are 0. -/
protected def beq (a b : Tape) : Bool :=
  a.pointer == b.pointer &&
    (a.extent.hull b.extent).indices.all fun index => a.get index == b.get index

instance : BEq Tape := ⟨Tape.beq⟩

@[simp]
theorem get_empty (index : Int) : empty.get index = 0 := by
  cases index <;> simp [empty, get]

theorem get_set (tape : Tape) (index place : Int) (value : UInt8) :
    (tape.set index value).get place = if place = index then value else tape.get place := by
  cases index <;> cases place <;>
    simp only [set, get, Ray.get_set, Int.ofNat.injEq, Int.negSucc.injEq, reduceCtorEq, if_false]

@[simp]
theorem pointer_set (tape : Tape) (index : Int) (value : UInt8) :
    (tape.set index value).pointer = tape.pointer := by
  cases index <;> rfl

@[simp]
theorem get_moveTo (tape : Tape) (index place : Int) :
    (tape.moveTo index).get place = tape.get place := by
  cases place <;> rfl

@[simp]
theorem pointer_moveTo (tape : Tape) (index : Int) : (tape.moveTo index).pointer = index := rfl

theorem get_write (tape : Tape) (start : Int) (cells : List UInt8) (index : Int) :
    (tape.write start cells).get index =
      if start ≤ index ∧ index < start + cells.length then cells.getD (index - start).toNat 0
      else tape.get index := by
  induction cells generalizing tape start with
  | nil =>
    rw [write, if_neg]
    simp only [List.length_nil]
    omega
  | cons value cells ih =>
    rw [write, ih, get_set, List.length_cons]
    by_cases hfirst : index = start
    · subst hfirst
      rw [if_neg (by omega), if_pos rfl, if_pos (by omega), Int.sub_self]
      rfl
    · rw [if_neg hfirst]
      by_cases hinside : start + 1 ≤ index ∧ index < start + 1 + cells.length
      · have hslot : (index - start).toNat = (index - (start + 1)).toNat + 1 := by omega
        rw [if_pos hinside, if_pos (by omega), hslot, List.getD_cons_succ]
      · rw [if_neg hinside, if_neg (by omega)]

theorem get_ofCells (start : Int) (cells : List UInt8) (pointer index : Int) :
    (ofCells start cells pointer).get index =
      if start ≤ index ∧ index < start + cells.length then cells.getD (index - start).toNat 0
      else 0 := by
  rw [ofCells, get_moveTo, get_write, get_empty]

theorem size_left_set (tape : Tape) (index : Int) (value : UInt8) :
    ((tape.set index value).left.size : Int) = max (tape.left.size : Int) (-index) := by
  cases index with
  | ofNat slot =>
    simp only [set, Int.ofNat_eq_natCast]
    omega
  | negSucc slot =>
    simp only [set, Ray.size_set]
    omega

theorem size_right_set (tape : Tape) (index : Int) (value : UInt8) :
    ((tape.set index value).right.size : Int) = max (tape.right.size : Int) (index + 1) := by
  cases index with
  | ofNat slot =>
    simp only [set, Ray.size_set, Int.ofNat_eq_natCast]
    omega
  | negSucc slot =>
    simp only [set]
    omega

theorem size_write (tape : Tape) (start : Int) {cells : List UInt8} (h : cells ≠ []) :
    ((tape.write start cells).left.size : Int) = max (tape.left.size : Int) (-start) ∧
      ((tape.write start cells).right.size : Int) =
        max (tape.right.size : Int) (start + cells.length) := by
  induction cells generalizing tape start with
  | nil => exact absurd rfl h
  | cons value cells ih =>
    cases cells with
    | nil => exact ⟨size_left_set tape start value, size_right_set tape start value⟩
    | cons next cells =>
      obtain ⟨hleft, hright⟩ := ih (tape.set start value) (start + 1) (List.cons_ne_nil _ _)
      rw [size_left_set] at hleft
      rw [size_right_set] at hright
      simp only [List.length_cons] at hright ⊢
      rw [write, hleft, hright]
      omega

theorem extent_eq (tape : Tape) :
    tape.extent = ⟨min (min 0 tape.pointer) (-(tape.left.size : Int)),
      max (max 0 tape.pointer) ((tape.right.size : Int) - 1)⟩ := by
  unfold extent written?
  split <;> rename_i hwritten <;> split at hwritten <;> cases hwritten
  · rfl
  · simp only [Window.mk.injEq]
    omega

theorem extent_bounds (tape : Tape) :
    tape.extent.low ≤ 0 ∧ tape.extent.low ≤ tape.pointer ∧ 0 ≤ tape.extent.high ∧
      tape.pointer ≤ tape.extent.high := by
  rw [extent_eq]
  simp only
  omega

theorem extent_ofCells {start pointer : Int} {cells : List UInt8} (hstart : start ≤ 0)
    (hstop : 0 < start + cells.length) (hlow : start ≤ pointer)
    (hhigh : pointer < start + cells.length) :
    (ofCells start cells pointer).extent = ⟨start, start + cells.length - 1⟩ := by
  have hne : cells ≠ [] := by
    rintro rfl
    simp only [List.length_nil] at hstop
    omega
  obtain ⟨hleft, hright⟩ := size_write empty start hne
  have hempty : (empty.left.size : Int) = 0 ∧ (empty.right.size : Int) = 0 := ⟨rfl, rfl⟩
  rw [extent_eq, ofCells]
  simp only [moveTo, hleft, hright, hempty, Window.mk.injEq]
  omega

theorem get_of_written?_eq_none {tape : Tape} (h : tape.written? = none) (index : Int) :
    tape.get index = 0 := by
  unfold written? at h
  split at h
  · rename_i hsize
    cases index with
    | ofNat slot => exact Ray.get_of_size_le (by omega)
    | negSucc slot => exact Ray.get_of_size_le (by omega)
  · cases h

theorem get_of_outside {tape : Tape} {window : Window} (h : tape.written? = some window)
    {index : Int}
    (hindex : index < window.low ∨ window.high < index) : tape.get index = 0 := by
  unfold written? at h
  split at h
  · cases h
  · cases h
    simp only at hindex
    cases index with
    | ofNat slot => exact Ray.get_of_size_le (by simp only [Int.ofNat_eq_natCast] at hindex; omega)
    | negSucc slot => exact Ray.get_of_size_le (by omega)

theorem get_of_not_mem_extent {tape : Tape} {index : Int} (h : index ∉ tape.extent.indices) :
    tape.get index = 0 := by
  cases hwritten : tape.written? with
  | none => exact get_of_written?_eq_none hwritten index
  | some window =>
    rw [extent, hwritten, Window.mem_indices] at h
    simp only [Window.hull] at h
    exact get_of_outside hwritten (by omega)

/-- Comparing the cells of both extents is comparing all cells. -/
theorem beq_iff {a b : Tape} :
    (a == b) = true ↔ a.pointer = b.pointer ∧ ∀ index, a.get index = b.get index := by
  change Tape.beq a b = true ↔ _
  simp only [Tape.beq, Bool.and_eq_true, beq_iff_eq, List.all_eq_true]
  refine and_congr_right fun _ => ⟨fun h index => ?_, fun h index _ => h index⟩
  by_cases hmem : index ∈ (a.extent.hull b.extent).indices
  · exact h index hmem
  · rw [Window.mem_indices] at hmem
    simp only [Window.hull] at hmem
    rw [get_of_not_mem_extent, get_of_not_mem_extent] <;> rw [Window.mem_indices] <;> omega

/-! ### Words -/

/-- The pointer is a word, and so is the index of every cell that is not 0. -/
structure Fits (tape : Tape) : Prop where
  pointer : IndexSpace.InWord tape.pointer
  get : ∀ index, ¬IndexSpace.InWord index → tape.get index = 0

theorem moveLeft_word {tape : Tape} (h : IndexSpace.InWord tape.pointer)
    (hfirst : tape.pointer ≠ IndexSpace.first) :
    @moveLeft .word tape = tape.moveLeft := by
  apply congrArg tape.moveTo
  apply IndexSpace.wrap_word_of_inWord
  simp only [IndexSpace.InWord, IndexSpace.first, IndexSpace.last] at h hfirst ⊢
  omega

theorem moveRight_word {tape : Tape} (h : IndexSpace.InWord tape.pointer)
    (hlast : tape.pointer ≠ IndexSpace.last) :
    @moveRight .word tape = tape.moveRight := by
  apply congrArg tape.moveTo
  apply IndexSpace.wrap_word_of_inWord
  simp only [IndexSpace.InWord, IndexSpace.first, IndexSpace.last] at h hlast ⊢
  omega

end Tape

end ByteTape
