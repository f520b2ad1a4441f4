import ByteTape.Proofs.Decode
import ByteTape.Proofs.Words

/-!
# Values put on a tape

Values are written one after the other, each as its shortest chain with the spacing that closes it.
That is one stretch of cells from index 0 on, and the cells of a row of chains side by side, so the
layout of the tape gives the values back.
-/

namespace ByteTape

namespace Tape

theorem write_append (tape : Tape) (start : Int) (front back : List UInt8) :
    tape.write start (front ++ back) =
      (tape.write start front).write (start + front.length) back := by
  induction front generalizing tape start with
  | nil =>
    rw [List.nil_append, write, List.length_nil, Int.natCast_zero, Int.add_zero]
  | cons value front ih =>
    have hstart : start + 1 + (front.length : Int) = start + (value :: front).length := by
      rw [List.length_cons]
      omega
    rw [List.cons_append, write, write, ih, hstart]

end Tape

namespace Chain

/-- The shortest chain that denotes the value. -/
def ofNat (value : Nat) : Chain where
  first := (Numeral.digitsOf value).head (Numeral.digitsOf_ne_nil value)
  rest := (Numeral.digitsOf value).tail

@[simp]
theorem digits_ofNat (value : Nat) : (ofNat value).digits = Numeral.digitsOf value :=
  List.cons_head_tail (Numeral.digitsOf_ne_nil value)

theorem row_eq_placed (start : Int) (values : List Nat) :
    Numeral.row start values = placed start (values.map ofNat) := by
  induction values generalizing start with
  | nil => rfl
  | cons value values ih =>
    rw [Numeral.row, ih, List.map_cons, placed, digits_ofNat]
    rfl

theorem map_word?_placed (start : Int) (values : List Nat) :
    (placed start (values.map ofNat)).map Numeral.word? =
      values.map fun value => if value < 2 ^ 128 then some value else none := by
  induction values generalizing start with
  | nil => rfl
  | cons value values ih =>
    rw [List.map_cons, placed, List.map_cons, ih, Numeral.word?_mk, digits_ofNat,
      Numeral.digitsValue_digitsOf, List.map_cons]

theorem exists_digitsOf_of_mem {start : Int} {values : List Nat} {numeral : Numeral}
    (h : numeral ∈ placed start (values.map ofNat)) :
    ∃ value, numeral.digits = Numeral.digitsOf value := by
  have hmem : numeral.digits ∈ (placed start (values.map ofNat)).map Numeral.digits :=
    List.mem_map_of_mem h
  rw [map_digits_placed, List.map_map] at hmem
  obtain ⟨value, -, hvalue⟩ := List.mem_map.1 hmem
  exact ⟨value, hvalue.symm.trans (digits_ofNat value)⟩

theorem cells_eq (start : Int) (chain : Chain) :
    Numeral.cells ⟨start, chain.digits⟩ = rowCells [chain] := by
  rw [rowCells_eq, triplets, List.flatMap_singleton]
  rfl

/-- The cells of a chain reach to where the next one may start. -/
theorem add_length_rowCells (start : Int) (chain : Chain) :
    start + (rowCells [chain]).length = Numeral.nextStart ⟨start, chain.digits⟩ := by
  rw [length_rowCells, length_triplets_cons, nextStart_eq, Int.natCast_mul]
  rfl

end Chain

namespace Tape

/-- Writing chains one by one is writing their cells in one go. -/
theorem foldl_writeNumeral_placed (tape : Tape) (start : Int) (row : List Chain) :
    (Chain.placed start row).foldl writeNumeral tape = tape.write start (rowCells row) := by
  induction row generalizing tape start with
  | nil => rfl
  | cons chain row ih =>
    have hcells : rowCells (chain :: row) = rowCells [chain] ++ rowCells row :=
      rowCells_append [chain] row
    rw [Chain.placed, List.foldl_cons, ih, writeNumeral, Chain.cells_eq, hcells, write_append,
      Chain.add_length_rowCells]

theorem displays_ofCells (start : Int) (row : List Chain) (pointer : Int) :
    (ofCells start (rowCells row) pointer).view.Displays start row := by
  rw [Chain.rowCells_eq]
  constructor
  · intro place hplace
    change Tape.get _ place = 0
    rw [get_ofCells, if_neg (by omega)]
  · apply View.CellsFrom.spells
    intro k
    have hoffset : (start + (k : Int) - start).toNat = k := by omega
    change Tape.get _ (start + k) = _
    rw [get_ofCells, hoffset]
    split
    · rfl
    · rw [List.getD_eq_default]
      omega

/-- A tape that holds nothing but a row of chains, with the pointer on one of them, has the layout
that lists them. -/
theorem layout_ofCells (start : Int) (row : List Chain) {active : Nat}
    (hactive : active < (Chain.placed start row).length) :
    (ofCells start (rowCells row) ((Chain.placed start row).get ⟨active, hactive⟩).start).layout =
      .ok ⟨Chain.placed start row, active, hactive⟩ := by
  apply (Layout.ofView_eq_ok_iff (confined_view _)).2
  refine ⟨?_, Chain.isChain_placed start row, rfl, ?_⟩
  · intro numeral hmem
    exact (Chain.mem_placed hmem).2.2
  · exact View.displays_iff_renders.1 (displays_ofCells start row _)

theorem ofValues_eq (values : List Nat) (active : Nat) :
    ofValues values active =
      ofCells 0 (rowCells (values.map Chain.ofNat))
        (((Chain.placed 0 (values.map Chain.ofNat))[active]?.map Numeral.start).getD 0) := by
  rw [ofCells, ← foldl_writeNumeral_placed, ← Chain.row_eq_placed]
  rfl

theorem exists_layout_ofValues {values : List Nat} (h : values ≠ []) (active : Nat) :
    ∃ layout : Layout, (ofValues values active).layout = .ok layout ∧
      layout.numerals = Chain.placed 0 (values.map Chain.ofNat) ∧
      layout.active = if active < values.length then active else 0 := by
  have hlength : (Chain.placed 0 (values.map Chain.ofNat)).length = values.length := by
    rw [Chain.length_placed, List.length_map]
  rw [ofValues_eq]
  by_cases hactive : active < values.length
  · have hlt : active < (Chain.placed 0 (values.map Chain.ofNat)).length := by rwa [hlength]
    rw [if_pos hactive, List.getElem?_eq_getElem hlt]
    exact ⟨_, layout_ofCells 0 _ hlt, rfl, rfl⟩
  · have hpositive : 0 < (Chain.placed 0 (values.map Chain.ofNat)).length := by
      rw [hlength]
      exact List.length_pos_iff.2 h
    have hlayout := layout_ofCells 0 (values.map Chain.ofNat) hpositive
    have hstart :
        ((Chain.placed 0 (values.map Chain.ofNat)).get ⟨0, hpositive⟩).start = 0 := by
      obtain ⟨value, rest, rfl⟩ := List.exists_cons_of_ne_nil h
      rfl
    rw [hstart] at hlayout
    rw [if_neg hactive, List.getElem?_eq_none (by omega)]
    exact ⟨_, hlayout, rfl, rfl⟩

end Tape

/-- **Values that were put on a tape read back.** A tape of values has a layout if there are any,
and its words are the values, in their order. Each numeral has the fewest digits; the first starts
at index 0, and each next one behind the digits of the one before and one spacing triplet. The
pointer is on the value asked for, or on the first one if there are not that many. Without values
there is no numeral at the pointer, which is at index 0. -/
theorem values_read_back (values : List Nat) :
    (values = [] → ∀ active, (Tape.ofValues values active).layout = .error (.pointerOff 0)) ∧
    (values ≠ [] → ∃ numerals : List Numeral,
      (∀ active, ∃ layout : Layout, (Tape.ofValues values active).layout = .ok layout ∧
        layout.numerals = numerals ∧
        layout.active = (if active < values.length then active else 0) ∧
        layout.words = values.map fun value => if value < 2 ^ 128 then some value else none) ∧
      (∀ numeral ∈ numerals, IsShortest numeral.digits) ∧
      numerals.head?.map Numeral.start = some 0 ∧
      numerals.IsChain fun a b => b.start = a.start + 3 * ((a.width : Int) + 1)) := by
  refine ⟨?_, ?_⟩
  · rintro rfl active
    rfl
  · intro hne
    refine ⟨Chain.placed 0 (values.map Chain.ofNat), ?_, ?_, ?_, ?_⟩
    · intro active
      obtain ⟨layout, hlayout, hnumerals, hactive⟩ := Tape.exists_layout_ofValues hne active
      refine ⟨layout, hlayout, hnumerals, hactive, ?_⟩
      rw [Layout.words, hnumerals, Chain.map_word?_placed]
    · intro numeral hmem
      obtain ⟨value, hdigits⟩ := Chain.exists_digitsOf_of_mem hmem
      rw [hdigits]
      exact Numeral.isShortest_digitsOf value
    · obtain ⟨value, rest, rfl⟩ := List.exists_cons_of_ne_nil hne
      rfl
    · apply (Chain.isChain_placed 0 _).imp
      intro a b hnext
      rw [hnext, Numeral.nextStart, Numeral.stop, Triplet.width]
      omega

end ByteTape
