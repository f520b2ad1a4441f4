import Mathlib.Logic.Basic
import ByteTape.Notation.Printer
import ByteTape.Proofs.Items

/-!
# Printed tapes

A printed tape is read as the tape that was printed. Its text is a row of items, one for each cell
of the extent and the bar, and reading them gives back the cells, the place of the pointer and that
of index 0. The tape that is read was written all over the extent of the other, so it has the same
extent and is printed in the same way.
-/

namespace ByteTape.Notation

/-! ### The items of a printed tape -/

/-- The text of a cell without what stands before it. -/
def cellText (tape : Tape) (index : Int) : List Char :=
  if index = tape.pointer then '[' :: Nat.toDigits 10 (tape.get index).toNat ++ [']']
  else Nat.toDigits 10 (tape.get index).toNat

def cellItem (tape : Tape) (index : Int) : Item :=
  if index = tape.pointer then .pointed (Nat.toDigits 10 (tape.get index).toNat)
  else .value (Nat.toDigits 10 (tape.get index).toNat)

/-- A cell, and the bar if it stands before the cell. -/
def cellItems (tape : Tape) (low index : Int) : List Item :=
  (if index = 0 ∧ low < 0 then [.bar] else []) ++ [cellItem tape index]

theorem printCell_eq (tape : Tape) (low index : Int) : printCell tape low index =
    (if index % Triplet.width = 0 then [' ', ' '] else []) ++
      ((if index = 0 ∧ low < 0 then ['|', ' '] else []) ++ cellText tape index) := by
  unfold printCell cellText
  by_cases hwide : index % Triplet.width = 0 <;> by_cases hbar : index = 0 ∧ low < 0 <;>
    simp [hwide, hbar]

theorem symbols_cellText (tape : Tape) (index : Int) {rest : List Char} (hrest : NoDigit rest) :
    symbols (cellText tape index ++ rest) = (cellItem tape index).symbols ++ symbols rest := by
  have hdigits : ∀ c ∈ Nat.toDigits 10 (tape.get index).toNat, c.isDigit = true := fun c hc =>
    Nat.isDigit_of_mem_toDigits (by decide) (by decide) hc
  unfold cellText cellItem
  split
  · have hclosing : NoDigit (']' :: rest) := noDigit_cons rfl rest
    rw [List.append_assoc, List.cons_append, symbols_char rfl rfl, List.singleton_append,
      symbols_number hdigits Nat.toDigits_ne_nil hclosing, symbols_char rfl rfl]
    rfl
  · exact symbols_number hdigits Nat.toDigits_ne_nil hrest

theorem symbols_printCell (tape : Tape) (low index : Int) {rest : List Char}
    (hrest : NoDigit rest) :
    symbols (printCell tape low index ++ rest) =
      (cellItems tape low index).flatMap Item.symbols ++ symbols rest := by
  have hblank : ∀ text, symbols (' ' :: text) = symbols text := symbols_blank rfl
  have hwide : ∀ text, symbols ((if index % Triplet.width = 0 then [' ', ' '] else []) ++ text) =
      symbols text := by
    intro text
    split
    · exact (hblank _).trans (hblank _)
    · rfl
  have hbar : ∀ text, symbols ((if index = 0 ∧ low < 0 then ['|', ' '] else []) ++ text) =
      (if index = 0 ∧ low < 0 then [Item.bar] else []).flatMap Item.symbols ++ symbols text := by
    intro text
    split
    · exact (symbols_char rfl rfl _).trans (congrArg _ (hblank _))
    · rfl
  rw [printCell_eq, List.append_assoc, List.append_assoc, hwide, hbar,
    symbols_cellText tape index hrest, cellItems, List.flatMap_append, List.flatMap_singleton,
    List.append_assoc]

theorem symbols_intercalate (tape : Tape) (low : Int) (indices : List Int) :
    symbols ([' '].intercalate (indices.map (printCell tape low))) =
      (indices.flatMap (cellItems tape low)).flatMap Item.symbols := by
  induction indices with
  | nil => exact symbols_nil
  | cons index indices ih =>
    rw [List.flatMap_cons, List.flatMap_append, ← ih]
    cases indices with
    | nil =>
      rw [List.map_singleton, List.intercalate_singleton, List.map_nil, List.intercalate_nil,
        ← symbols_printCell tape low index noDigit_nil, List.append_nil]
    | cons next indices =>
      have hgap :
          NoDigit (' ' :: [' '].intercalate ((next :: indices).map (printCell tape low))) :=
        noDigit_cons rfl _
      have hblank := symbols_blank (c := ' ') rfl
        ([' '].intercalate ((next :: indices).map (printCell tape low)))
      rw [← hblank, ← symbols_printCell tape low index hgap, List.map_cons, List.map_cons,
        List.intercalate_cons_cons, List.append_assoc, List.singleton_append]

/-! ### Reading them -/

/-- What has been read when the first cells of a printed tape are read. -/
def printed (tape : Tape) (low : Int) (count : Nat) : Draft where
  cells := ((List.range count).map fun (offset : Nat) => tape.get (low + offset)).toArray
  pointer? :=
    if low ≤ tape.pointer ∧ tape.pointer < low + count then some (tape.pointer - low).toNat
    else none
  bar? := if low < 0 ∧ 0 < low + count then some (-low).toNat else none

theorem ofDigitChars_toDigits (value : UInt8) :
    InRange (Nat.toDigits 10 value.toNat) ∧ byte (Nat.toDigits 10 value.toNat) = value := by
  rw [InRange, byte, Nat.ofDigitChars_ten_toDigits]
  exact ⟨value.toNat_lt, UInt8.ofNat_toNat⟩

section Printed

variable (tape : Tape) (low : Int) (count : Nat)

theorem cells_printed_succ : (printed tape low (count + 1)).cells =
    (printed tape low count).cells.push (tape.get (low + count)) := by
  simp only [printed, List.range_succ, List.map_append, List.map_singleton, List.push_toArray]

theorem size_cells_printed : (printed tape low count).cells.size = count := by
  simp [printed]

theorem bar?_printed_succ : (printed tape low (count + 1)).bar? =
    if low + count = 0 ∧ low < 0 then some count else (printed tape low count).bar? := by
  simp only [printed]
  by_cases hzero : low + count = 0 ∧ low < 0
  · rw [if_pos hzero, if_pos (by omega)]
    congr 1
    omega
  · rw [if_neg hzero]
    exact if_congr (by omega) rfl rfl

theorem pointer?_printed_succ : (printed tape low (count + 1)).pointer? =
    if low + count = tape.pointer then some count else (printed tape low count).pointer? := by
  simp only [printed]
  by_cases hpointer : low + count = tape.pointer
  · rw [if_pos hpointer, if_pos (by omega)]
    congr 1
    omega
  · rw [if_neg hpointer]
    exact if_congr (by omega) rfl rfl

theorem add_bar : (printed tape low count).AdmitsAll
      (if low + count = 0 ∧ low < 0 then [.bar] else []) ∧
    (if low + count = 0 ∧ low < 0 then [.bar] else []).foldl Draft.add (printed tape low count) =
      ⟨(printed tape low count).cells, (printed tape low count).pointer?,
        (printed tape low (count + 1)).bar?⟩ := by
  rw [bar?_printed_succ]
  split
  · have hnone : (printed tape low count).bar? = none := if_neg (by omega)
    refine ⟨⟨hnone, trivial⟩, ?_⟩
    simp only [List.foldl_cons, List.foldl_nil, Draft.add, Draft.markBar, size_cells_printed]
  · exact ⟨trivial, rfl⟩

theorem add_cellItem (bar? : Option Nat) :
    Draft.Admits ⟨(printed tape low count).cells, (printed tape low count).pointer?, bar?⟩
      (cellItem tape (low + count)) ∧
    Draft.add ⟨(printed tape low count).cells, (printed tape low count).pointer?, bar?⟩
      (cellItem tape (low + count)) =
      ⟨(printed tape low (count + 1)).cells, (printed tape low (count + 1)).pointer?, bar?⟩ := by
  obtain ⟨hrange, hbyte⟩ := ofDigitChars_toDigits (tape.get (low + count))
  rw [cells_printed_succ, pointer?_printed_succ, cellItem]
  split
  · have hnone : (printed tape low count).pointer? = none := if_neg (by omega)
    refine ⟨⟨hnone, hrange⟩, ?_⟩
    simp only [Draft.add, Draft.markPointer, Draft.push, hbyte, size_cells_printed]
  · refine ⟨hrange, ?_⟩
    simp only [Draft.add, Draft.push, hbyte]

theorem printed_succ :
    (printed tape low count).AdmitsAll (cellItems tape low (low + count)) ∧
      (cellItems tape low (low + count)).foldl Draft.add (printed tape low count) =
        printed tape low (count + 1) := by
  obtain ⟨hbar, hmarked⟩ := add_bar tape low count
  obtain ⟨hvalue, hpushed⟩ := add_cellItem tape low count (printed tape low (count + 1)).bar?
  rw [cellItems, Draft.admitsAll_append, List.foldl_append, hmarked]
  exact ⟨⟨hbar, hvalue, trivial⟩, hpushed⟩

theorem admitsAll_printed :
    Draft.AdmitsAll {} ((List.range count).flatMap fun (offset : Nat) =>
      cellItems tape low (low + offset)) ∧
    ((List.range count).flatMap fun (offset : Nat) => cellItems tape low (low + offset)).foldl
      Draft.add {} = printed tape low count := by
  induction count with
  | zero =>
    refine ⟨trivial, ?_⟩
    have hpointer : (printed tape low 0).pointer? = none := if_neg (by omega)
    have hbar : (printed tape low 0).bar? = none := if_neg (by omega)
    change ({} : Draft) = ⟨#[], (printed tape low 0).pointer?, (printed tape low 0).bar?⟩
    rw [hpointer, hbar]
  | succ count ih =>
    obtain ⟨hadmits, hdraft⟩ := printed_succ tape low count
    rw [List.range_succ, List.flatMap_append, List.flatMap_singleton, Draft.admitsAll_append,
      List.foldl_append, ih.2]
    exact ⟨⟨ih.1, hadmits⟩, hdraft⟩

end Printed

/-! ### The tape that is read -/

theorem tape_printed {tape : Tape} {low : Int} {count : Nat} (hlow : low ≤ 0)
    (hhigh : 0 < low + count) (hpointer : low ≤ tape.pointer)
    (hpointer' : tape.pointer < low + count) :
    (printed tape low count).tape =
      Tape.ofCells low (printed tape low count).cells.toList tape.pointer := by
  have hmark : (printed tape low count).pointer? = some (tape.pointer - low).toNat :=
    if_pos ⟨hpointer, hpointer'⟩
  have hstart : -(((printed tape low count).bar?.getD 0 : Nat) : Int) = low := by
    simp only [printed]
    split
    · simp only [Option.getD_some]
      omega
    · simp only [Option.getD_none]
      omega
  have hplace : ((tape.pointer - low).toNat : Int) + low = tape.pointer := by omega
  unfold Draft.tape
  simp only [hmark, hstart, hplace]

/-- Number of cells of the extent. -/
def extentSize (tape : Tape) : Nat := (tape.extent.high - tape.extent.low + 1).toNat

theorem low_add_extentSize (tape : Tape) :
    tape.extent.low + extentSize tape = tape.extent.high + 1 := by
  have hbounds := tape.extent_bounds
  unfold extentSize
  omega

/-- The tape that is read has the cells of the extent written. -/
def reread (tape : Tape) : Tape :=
  Tape.ofCells tape.extent.low (printed tape tape.extent.low (extentSize tape)).cells.toList
    tape.pointer

theorem symbols_print (tape : Tape) : symbols (print tape).toList =
    ((List.range (extentSize tape)).flatMap fun (offset : Nat) =>
      cellItems tape tape.extent.low (tape.extent.low + offset)).flatMap Item.symbols := by
  have hitems := symbols_intercalate tape tape.extent.low tape.extent.indices
  rw [Window.indices, List.flatMap_map] at hitems
  rw [print, String.toList_ofList]
  exact hitems

theorem read_print (tape : Tape) : read (print tape) = .ok (reread tape) := by
  obtain ⟨hadmits, hdraft⟩ := admitsAll_printed tape tape.extent.low (extentSize tape)
  have hsize := low_add_extentSize tape
  obtain ⟨hlow, hpointer, hhigh, hpointer'⟩ := tape.extent_bounds
  rw [read_of_items (symbols_print tape) hadmits, hdraft]
  exact congrArg Except.ok (tape_printed hlow (by omega) hpointer (by omega))

theorem length_cells_printed (tape : Tape) (low : Int) (count : Nat) :
    (printed tape low count).cells.toList.length = count := by
  rw [Array.length_toList, size_cells_printed]

theorem getD_cells_printed (tape : Tape) (low : Int) {count offset : Nat} (h : offset < count) :
    (printed tape low count).cells.toList.getD offset 0 = tape.get (low + offset) := by
  simp [printed, h]

theorem get_reread (tape : Tape) (index : Int) : (reread tape).get index = tape.get index := by
  rw [reread, Tape.get_ofCells, length_cells_printed, low_add_extentSize]
  split
  · rename_i hinside
    have hoffset : (index - tape.extent.low).toNat < extentSize tape := by
      have hsize := low_add_extentSize tape
      omega
    have hindex : tape.extent.low + ((index - tape.extent.low).toNat : Int) = index := by omega
    rw [getD_cells_printed tape tape.extent.low hoffset, hindex]
  · rename_i houtside
    refine (Tape.get_of_not_mem_extent fun hmem => houtside ?_).symm
    rw [Window.mem_indices] at hmem
    omega

theorem extent_reread (tape : Tape) : (reread tape).extent = tape.extent := by
  obtain ⟨hlow, hpointer, hhigh, hpointer'⟩ := tape.extent_bounds
  have hsize := low_add_extentSize tape
  have hlength := length_cells_printed tape tape.extent.low (extentSize tape)
  have hlast : tape.extent.low + extentSize tape - 1 = tape.extent.high := by omega
  rw [reread, Tape.extent_ofCells hlow (by omega) hpointer (by omega), hlength, hlast]

theorem print_congr {a b : Tape} (hextent : a.extent = b.extent) (hpointer : a.pointer = b.pointer)
    (hget : ∀ index, a.get index = b.get index) : print a = print b := by
  have hcell : printCell a b.extent.low = printCell b b.extent.low := by
    funext index
    unfold printCell
    rw [hpointer, hget]
  simp only [print, hextent, hcell]

/-- **Printing is undone by reading.** Whatever cells a tape has, written or not, and wherever its
pointer is, its text is read, as a tape that is equal in the pointer and in every cell. That tape is
printed as the same text. -/
theorem printed_tape_reads_back (tape : Tape) :
    ∃ tape', read (print tape) = .ok tape' ∧ (tape' == tape) = true ∧
      tape'.pointer = tape.pointer ∧ (∀ index, tape'.get index = tape.get index) ∧
      print tape' = print tape :=
  ⟨reread tape, read_print tape, Tape.beq_iff.2 ⟨rfl, get_reread tape⟩, rfl, get_reread tape,
    print_congr (extent_reread tape) rfl (get_reread tape)⟩

end ByteTape.Notation
