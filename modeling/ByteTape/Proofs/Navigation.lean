import ByteTape.Proofs.Contract

/-!
# Going from numeral to numeral

The codes of `>` and `<` on any tape with a layout. `Layout.goRight` and `Layout.goLeft` say what
becomes of the layout: another numeral is active, and where there is no neighbour it is a new one.
What they say of layouts the commands do to rows of chains (`Lists.goRight`, `Lists.goLeft`), and
so their codes do it to tapes.
-/

namespace ByteTape

open Machine Operation

namespace Layout

theorem numerals_ne_nil (layout : Layout) : layout.numerals ≠ [] :=
  List.ne_nil_of_length_pos (Nat.zero_lt_of_lt layout.active_lt)

def first (layout : Layout) : Numeral := layout.numerals.head layout.numerals_ne_nil

def last (layout : Layout) : Numeral := layout.numerals.getLast layout.numerals_ne_nil

/-- The layout with the right neighbour active. The last numeral gets a neighbour that is zero. -/
def goRight (layout : Layout) : Layout :=
  if h : layout.active + 1 < layout.numerals.length then
    ⟨layout.numerals, layout.active + 1, h⟩
  else
    ⟨layout.numerals ++ [⟨layout.last.nextStart, [0]⟩], layout.numerals.length, by simp⟩

/-- The layout with the left neighbour active. The first numeral gets a neighbour that is zero. -/
def goLeft (layout : Layout) : Layout :=
  if 0 < layout.active then
    ⟨layout.numerals, layout.active - 1, Nat.lt_of_le_of_lt (Nat.sub_le _ _) layout.active_lt⟩
  else
    ⟨⟨layout.first.start - 6, [0]⟩ :: layout.numerals, 0, by simp⟩

variable {layout : Layout} {s : Chains}

theorem numerals_goRight_of_lt (h : layout.active + 1 < layout.numerals.length) :
    layout.goRight.numerals = layout.numerals := by
  rw [goRight, dif_pos h]

theorem numerals_goRight_of_not_lt (h : ¬layout.active + 1 < layout.numerals.length) :
    layout.goRight.numerals = layout.numerals ++ [⟨layout.last.nextStart, [0]⟩] := by
  rw [goRight, dif_neg h]

theorem active_goRight (layout : Layout) : layout.goRight.active = layout.active + 1 := by
  unfold goRight
  split
  · rfl
  · have hlt := layout.active_lt
    simp only
    omega

theorem numerals_goLeft_of_pos (h : 0 < layout.active) :
    layout.goLeft.numerals = layout.numerals := by
  rw [goLeft, if_pos h]

theorem numerals_goLeft_of_not_pos (h : ¬0 < layout.active) :
    layout.goLeft.numerals = ⟨layout.first.start - 6, [0]⟩ :: layout.numerals := by
  rw [goLeft, if_neg h]

theorem active_goLeft (layout : Layout) : layout.goLeft.active = layout.active - 1 := by
  unfold goLeft
  split
  · rfl
  · simp only
    omega

theorem goLeft_goRight (h : layout.active + 1 < layout.numerals.length) :
    layout.goRight.goLeft = layout := by
  simp [goRight, goLeft, h]

theorem goRight_goLeft (h : 0 < layout.active) : layout.goLeft.goRight = layout := by
  have hactive : layout.active - 1 + 1 = layout.active := Nat.sub_add_cancel h
  simp [goRight, goLeft, h, hactive, layout.active_lt]

end Layout

/-! ### Rows of chains -/

namespace Chains

theorem console_right (s : Chains) : (s.perform .right).console = s.console := by
  obtain ⟨before, active, after, origin, console⟩ := s
  cases after <;> rfl

theorem console_left (s : Chains) : (s.perform .left).console = s.console := by
  obtain ⟨before, active, after, origin, console⟩ := s
  cases before <;> rfl

theorem pointer_right (s : Chains) :
    (s.perform .right).pointer = Numeral.nextStart ⟨s.pointer, s.active.digits⟩ := by
  have hpointer : (s.perform .right).pointer =
      s.origin + (rowCells (s.active :: s.before).reverse).length := by
    obtain ⟨before, active, after, origin, console⟩ := s
    cases after <;> rfl
  rw [hpointer, length_rowCells_reverse_cons, Chain.nextStart_eq, pointer]
  simp only [Triplet.width]
  omega

end Chains

namespace Layout.Lists

variable {layout : Layout} {s : Chains}

theorem length_numerals (h : layout.Lists s) :
    layout.numerals.length = layout.active + 1 + s.after.length := by
  rw [h.numerals, Chain.length_placed, Chains.row, List.length_append, List.length_reverse,
    List.length_cons, h.active]
  omega

theorem start_first (h : layout.Lists s) : layout.first.start = s.origin := by
  have hhead : layout.numerals.head? = some layout.first := List.head?_eq_some_head _
  rw [h.numerals] at hhead
  cases hrow : s.row with
  | nil =>
    rw [hrow] at hhead
    cases hhead
  | cons chain row =>
    rw [hrow, Chain.placed, List.head?_cons] at hhead
    exact congrArg Numeral.start (Option.some.inj hhead).symm

theorem last_eq (h : layout.Lists s) (hafter : s.after = []) :
    layout.last = ⟨s.pointer, s.active.digits⟩ := by
  have hlast : layout.numerals.getLast? = some layout.last := List.getLast?_eq_some_getLast _
  rw [h.numerals, s.placed_row, hafter, Chain.placed, List.getLast?_concat] at hlast
  exact (Option.some.inj hlast).symm

theorem goRight (h : layout.Lists s) : layout.goRight.Lists (s.perform .right) := by
  have hlength := h.length_numerals
  constructor
  · cases hafter : s.after with
    | nil =>
      have hnot : ¬layout.active + 1 < layout.numerals.length := by
        rw [hlength, hafter, List.length_nil]
        omega
      -- The active chain is the last, so the new one is where the pointer of the row goes.
      rw [numerals_goRight_of_not_lt hnot, h.last_eq hafter, ← s.pointer_right, h.numerals,
        Chains.placed_row (s.perform .right)]
      obtain ⟨before, active, after, origin, console⟩ := s
      obtain rfl : after = [] := hafter
      simp [Chains.perform, Chains.row, Chain.placed, Chain.zero, Chain.digits]
    | cons next after =>
      have hlt : layout.active + 1 < layout.numerals.length := by
        rw [hlength, hafter, List.length_cons]
        omega
      rw [numerals_goRight_of_lt hlt, h.numerals]
      obtain ⟨before, active, after, origin, console⟩ := s
      obtain rfl := hafter
      simp [Chains.perform, Chains.row]
  · rw [active_goRight, h.active]
    obtain ⟨before, active, after, origin, console⟩ := s
    cases after <;> rfl

theorem goLeft (h : layout.Lists s) : layout.goLeft.Lists (s.perform .left) := by
  have hfirst := h.start_first
  have hactive := h.active
  have hnumerals := h.numerals
  obtain ⟨before, active, after, origin, console⟩ := s
  cases before with
  | nil =>
    have hnot : ¬0 < layout.active := by
      rw [hactive]
      exact Nat.lt_irrefl 0
    -- One digit and one spacing triplet reach up to the chain that was first.
    have hnext : Numeral.nextStart ⟨origin - 6, [0]⟩ = origin := by
      rw [Chain.nextStart_eq]
      simp [Triplet.width]
    constructor
    · rw [numerals_goLeft_of_not_pos hnot, hfirst, hnumerals]
      simp [Chains.perform, Chains.row, Chain.placed, Chain.zero, Chain.digits, hnext]
    · rw [active_goLeft, hactive]
      rfl
  | cons previous before =>
    have hpos : 0 < layout.active := by
      rw [hactive]
      exact Nat.succ_pos _
    constructor
    · rw [numerals_goLeft_of_pos hpos, hnumerals]
      simp [Chains.perform, Chains.row]
    · rw [active_goLeft, hactive]
      rfl

end Layout.Lists

/-! ### The codes -/

/-- **Navigation.** The codes of `>` and `<` by themselves, on a tape with any layout, complete
without reading or writing, and leave the pointer on the right or left neighbour of the active
numeral. If the neighbour is there, no cell changes, whatever the widths are. If not, it is a new
numeral, and all others stay. So going to a neighbour and back restores the tape. -/
theorem navigation_follows_layout (tape : Tape) (layout : Layout) (h : tape.layout = .ok layout)
    (trace : Bool) (input : List UInt8) :
    let right := (command (.act .right)).fragment
    let left := (command (.act .left)).fragment
    (∃ final, right.CompletesWithout [.act .read, .act .write] trace tape input final ∧
      final.store.console = { input, output := #[] } ∧
      final.store.tape.layout = .ok layout.goRight ∧
      final.store.tape.pointer = layout.goRight.activeNumeral.start ∧
      (layout.active + 1 < layout.numerals.length →
        ∀ index, final.store.tape.get index = tape.get index)) ∧
    (∃ final, left.CompletesWithout [.act .read, .act .write] trace tape input final ∧
      final.store.console = { input, output := #[] } ∧
      final.store.tape.layout = .ok layout.goLeft ∧
      final.store.tape.pointer = layout.goLeft.activeNumeral.start ∧
      (0 < layout.active → ∀ index, final.store.tape.get index = tape.get index)) ∧
    (layout.active + 1 < layout.numerals.length →
      ∃ final, Code.CompletesWithout (right ++ left) [.act .read, .act .write] trace tape input
          final ∧
        final.store.console = { input, output := #[] } ∧ (final.store.tape == tape) = true) ∧
    (0 < layout.active →
      ∃ final, Code.CompletesWithout (left ++ right) [.act .read, .act .write] trace tape input
          final ∧
        final.store.console = { input, output := #[] } ∧ (final.store.tape == tape) = true) := by
  intro right left
  have hright := Code.performs_command .right
  have hleft := Code.performs_command .left
  refine ⟨?_, ?_, ?_, ?_⟩
  · obtain ⟨final, hcompletes, hconsole, hlayout⟩ :=
      hright.exists_completes_silently h (by decide +kernel) (fun _ hs => hs.goRight)
        Chains.console_right trace input
    refine ⟨final, hcompletes, hconsole, hlayout, Tape.pointer_of_layout hlayout, ?_⟩
    intro hlt
    exact Tape.get_eq_of_numerals_eq hlayout h (Layout.numerals_goRight_of_lt hlt)
  · obtain ⟨final, hcompletes, hconsole, hlayout⟩ :=
      hleft.exists_completes_silently h (by decide +kernel) (fun _ hs => hs.goLeft)
        Chains.console_left trace input
    refine ⟨final, hcompletes, hconsole, hlayout, Tape.pointer_of_layout hlayout, ?_⟩
    intro hpos
    exact Tape.get_eq_of_numerals_eq hlayout h (Layout.numerals_goLeft_of_pos hpos)
  · intro hlt
    obtain ⟨final, hcompletes, hconsole, hlayout⟩ :=
      (hright.append hleft).exists_completes_silently h (by decide +kernel)
        (fun _ hs => hs.goRight.goLeft)
        (fun s => (Chains.console_left _).trans s.console_right) trace input
    rw [Layout.goLeft_goRight hlt] at hlayout
    exact ⟨final, hcompletes, hconsole, Tape.beq_of_layout_eq hlayout h⟩
  · intro hpos
    obtain ⟨final, hcompletes, hconsole, hlayout⟩ :=
      (hleft.append hright).exists_completes_silently h (by decide +kernel)
        (fun _ hs => hs.goLeft.goRight)
        (fun s => (Chains.console_right _).trans s.console_left) trace input
    rw [Layout.goRight_goLeft hpos] at hlayout
    exact ⟨final, hcompletes, hconsole, Tape.beq_of_layout_eq hlayout h⟩

/-- From 7, with two digits on its left and one on its right. -/
theorem navigation_from_middle :
    let tape := Tape.ofCells (-4) [1, 0, 5, 1, 0, 6, 0, 0, 0, 1, 0, 7, 0, 0, 0, 1, 0, 9] 5
    let right := (command (.act .right)).fragment
    let left := (command (.act .left)).fragment
    (∃ final, right.CompletesWithout [.act .read, .act .write] false tape [65] final ∧
      final.store.tape.pointer = 11 ∧ ∀ index, final.store.tape.get index = tape.get index) ∧
    (∃ final, left.CompletesWithout [.act .read, .act .write] false tape [65] final ∧
      final.store.tape.pointer = -4 ∧ ∀ index, final.store.tape.get index = tape.get index) ∧
    (∃ final, Code.CompletesWithout (right ++ left) [.act .read, .act .write] false tape [65]
        final ∧
      (final.store.tape == tape) = true) ∧
    ∃ final, Code.CompletesWithout (left ++ right) [.act .read, .act .write] false tape [65]
        final ∧
      (final.store.tape == tape) = true := by
  intro tape right left
  have hlayout : tape.layout = .ok ⟨[⟨-4, [5, 6]⟩, ⟨5, [7]⟩, ⟨11, [9]⟩], 1, by decide⟩ := by
    decide +kernel
  obtain ⟨⟨next, hnext, -, -, hpointer, hcells⟩, ⟨previous, hprevious, -, -, hpointer', hcells'⟩,
    hback, hforth⟩ := navigation_follows_layout _ _ hlayout false [65]
  obtain ⟨final, hfinal, -, hsame⟩ := hback (by decide)
  obtain ⟨final', hfinal', -, hsame'⟩ := hforth (by decide)
  exact ⟨⟨next, hnext, hpointer, hcells (by decide)⟩,
    ⟨previous, hprevious, hpointer', hcells' (by decide)⟩, ⟨final, hfinal, hsame⟩,
    ⟨final', hfinal', hsame'⟩⟩

end ByteTape
