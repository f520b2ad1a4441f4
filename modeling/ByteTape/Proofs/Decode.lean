import Mathlib.Data.List.GetD
import ByteTape.Proofs.Rendering
import ByteTape.Proofs.Simulation

/-!
# The layout of a row

A tape that shows a row of chains has a layout, and it lists the chains where they stand, with the
active one under the pointer.
-/

namespace ByteTape

theorem append_blank_apply (cells : List UInt8) (n : Nat) :
    (cells ++ₛ blank) n = cells.getD n 0 := by
  induction cells generalizing n with
  | nil => rfl
  | cons cell cells ih =>
    cases n with
    | zero => rfl
    | succ n => exact ih n

namespace Chain

theorem rowCells_eq (row : List Chain) :
    rowCells row = (triplets row).flatMap fun triplet => triplet.cells.toList := by
  have hdigits : ∀ ds : List UInt8, chainCells ds =
      (ds.map Triplet.digit).flatMap fun triplet => triplet.cells.toList := by
    intro ds
    rw [List.flatMap_map]
    rfl
  induction row with
  | nil => rfl
  | cons chain row ih =>
    have hcons : triplets (chain :: row) =
        chain.digits.map .digit ++ [.spacing] ++ triplets row := rfl
    rw [hcons, List.flatMap_append, List.flatMap_append, ← hdigits, ← ih, rowCells_cons]
    rfl

theorem length_rowCells (row : List Chain) :
    (rowCells row).length = Triplet.width * (triplets row).length := by
  induction row with
  | nil => rfl
  | cons chain row ih =>
    rw [length_triplets_cons, rowCells_cons]
    simp only [List.length_append, length_chainCells, List.length_cons, List.length_nil, ih,
      Triplet.width]
    omega

theorem map_digits_placed (start : Int) (row : List Chain) :
    (placed start row).map Numeral.digits = row.map digits := by
  induction row generalizing start with
  | nil => rfl
  | cons chain row ih => rw [placed, List.map_cons, List.map_cons, ih]

theorem length_placed (start : Int) (row : List Chain) :
    (placed start row).length = row.length := by
  rw [← List.length_map Numeral.digits, map_digits_placed, List.length_map]

end Chain

namespace Chains

/-- Index of the first flag of the active chain. -/
def pointer (s : Chains) : Int := s.origin + (rowCells s.before.reverse).length

theorem ahead_eq (chain : Chain) (after : List Chain) :
    ahead chain after = rowCells (chain :: after) ++ₛ blank := by
  simp only [ahead, rowCells_cons, Stream'.append_append_stream, Stream'.cons_append_stream,
    Stream'.nil_append_stream]

/-- The chains on the left of the active one, that one, and those on its right. -/
theorem placed_row (s : Chains) :
    Chain.placed s.origin s.row =
      Chain.placed s.origin s.before.reverse ++ ⟨s.pointer, s.active.digits⟩ ::
        Chain.placed (Numeral.nextStart ⟨s.pointer, s.active.digits⟩) s.after := by
  have hpointer : s.origin + Triplet.width * (Chain.triplets s.before.reverse).length =
      s.pointer := by
    rw [pointer, Chain.length_rowCells]
    rfl
  rw [row, Chain.placed_append, hpointer, Chain.placed]

end Chains

/-- The layout lists the chains of the row where they stand. -/
structure Layout.Lists (layout : Layout) (s : Chains) : Prop where
  numerals : layout.numerals = Chain.placed s.origin s.row
  active : layout.active = s.before.length

namespace Layout.Lists

variable {layout : Layout} {s : Chains}

theorem length_before (h : layout.Lists s) :
    layout.active = (Chain.placed s.origin s.before.reverse).length := by
  rw [Chain.length_placed, List.length_reverse, h.active]

theorem take_active (h : layout.Lists s) :
    layout.numerals.take layout.active = Chain.placed s.origin s.before.reverse := by
  rw [h.numerals, s.placed_row, h.length_before, List.take_left]

theorem activeNumeral (h : layout.Lists s) :
    layout.activeNumeral = ⟨s.pointer, s.active.digits⟩ := by
  have hget : layout.numerals[layout.active]? = some ⟨s.pointer, s.active.digits⟩ := by
    rw [h.numerals, s.placed_row, h.length_before, List.getElem?_append_right (Nat.le_refl _),
      Nat.sub_self, List.getElem?_cons_zero]
  exact (List.getElem?_eq_some_iff.1 hget).2

theorem drop_active (h : layout.Lists s) :
    layout.numerals.drop (layout.active + 1) =
      Chain.placed (Numeral.nextStart ⟨s.pointer, s.active.digits⟩) s.after := by
  rw [h.numerals, s.placed_row, h.length_before, List.drop_length_add_append, List.drop_succ_cons,
    List.drop_zero]

end Layout.Lists

namespace Store

variable {store : Store} {s : Chains}

theorem Shows.pointer_eq (h : store.Shows s) : store.tape.pointer = s.pointer := by
  have hlowest : store.lowest = s.origin - 3 := congrArg Band.lowest h.2
  have hmargin : (store.tape.pointer - store.lowest).toNat =
      (rowCells s.before.reverse).length + 3 := congrArg Band.margin h.2
  have hle := h.1
  rw [Chains.pointer]
  omega

theorem Shows.get_ahead (h : store.Shows s) (n : Nat) :
    store.tape.get (store.tape.pointer + n) = (rowCells (s.active :: s.after)).getD n 0 := by
  have hcell := congrFun ((congrArg Band.ahead h.2).trans (Chains.ahead_eq ..)) n
  exact hcell.trans (append_blank_apply _ n)

theorem Shows.get_behind (h : store.Shows s) (n : Nat) :
    store.tape.get (store.tape.pointer - 1 - n) = (rowCells s.before.reverse).reverse.getD n 0 := by
  have hcell := congrFun (congrArg Band.behind h.2) n
  exact hcell.trans (append_blank_apply _ n)

theorem Shows.cellsFrom (h : store.Shows s) :
    store.tape.view.CellsFrom s.origin (rowCells s.row) := by
  intro k
  have hpointer : store.tape.pointer = s.origin + (rowCells s.before.reverse).length :=
    h.pointer_eq
  rw [Chains.row, rowCells_append]
  rcases Nat.lt_or_ge k (rowCells s.before.reverse).length with hlt | hge
  · have hindex : s.origin + (k : Int) = store.tape.pointer - 1 -
        ((rowCells s.before.reverse).length - 1 - k : Nat) := by omega
    have hplace : (rowCells s.before.reverse).length - 1 -
        ((rowCells s.before.reverse).length - 1 - k) = k := by omega
    change store.tape.get _ = _
    rw [hindex, h.get_behind, List.getD_eq_getElem?_getD, List.getElem?_reverse (by omega), hplace,
      ← List.getD_eq_getElem?_getD, List.getD_append _ _ _ _ hlt]
  · obtain ⟨n, rfl⟩ := Nat.exists_eq_add_of_le hge
    have hindex : s.origin + ((rowCells s.before.reverse).length + n : Nat) =
        store.tape.pointer + n := by omega
    change store.tape.get _ = _
    rw [hindex, h.get_ahead, List.getD_append_right _ _ _ _ hge, Nat.add_sub_cancel_left]

theorem Shows.get_below (h : store.Shows s) {index : Int} (hindex : index < s.origin) :
    store.tape.get index = 0 := by
  have hpointer : store.tape.pointer = s.origin + (rowCells s.before.reverse).length :=
    h.pointer_eq
  obtain ⟨n, rfl⟩ : ∃ n : Nat, index = store.tape.pointer - 1 - n :=
    ⟨(store.tape.pointer - 1 - index).toNat, by omega⟩
  rw [h.get_behind, List.getD_eq_default]
  rw [List.length_reverse]
  omega

theorem Shows.displays (h : store.Shows s) : store.tape.view.Displays s.origin s.row := by
  have hcells := h.cellsFrom
  rw [Chain.rowCells_eq] at hcells
  exact ⟨fun place hplace => h.get_below hplace, hcells.spells⟩

theorem Shows.exists_layout (h : store.Shows s) :
    ∃ layout : Layout, store.tape.layout = .ok layout ∧ layout.Lists s := by
  have hactive : s.before.length < (Chain.placed s.origin s.row).length := by
    rw [Chain.length_placed, Chains.row, List.length_append, List.length_reverse, List.length_cons]
    omega
  let layout : Layout := ⟨Chain.placed s.origin s.row, s.before.length, hactive⟩
  have hlists : layout.Lists s := ⟨rfl, rfl⟩
  refine ⟨layout, ?_, hlists⟩
  refine (Layout.ofView_eq_ok_iff store.tape.confined_view).2 ⟨?_, Chain.isChain_placed _ _, ?_,
    View.displays_iff_renders.1 h.displays⟩
  · intro numeral hmem
    exact (Chain.mem_placed hmem).2.2
  · rw [hlists.activeNumeral]
    exact h.pointer_eq.symm

end Store

end ByteTape
