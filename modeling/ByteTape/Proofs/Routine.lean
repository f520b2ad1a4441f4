import ByteTape.Proofs.Decode
import ByteTape.Proofs.Shift

/-!
# Operations on tapes with a layout

A tape with a layout shows a row of chains (`Tape.exists_shows`). So what the code of an operation
does to the band of a row, it does to every such tape when it is run by itself. Such a run starts
without having visited the cells on the left, which bands of rows take as visited. But what was
visited is only recorded, and decides nothing.
-/

namespace ByteTape

open Block (Takes)
open Operation

namespace View

variable {view : View} {index : Int}

theorem cellsFrom_of_spells {triplets : List Triplet}
    (h : ∀ count, view.Spells index (triplets ++ List.replicate count .spacing)) :
    view.CellsFrom index (triplets.flatMap fun triplet => triplet.cells.toList) := by
  induction triplets generalizing index with
  | nil =>
    intro k
    apply spells_spacing_iff.1 (h (k + 1))
    · omega
    · simp only [Triplet.width]
      omega
  | cons triplet triplets ih =>
    have hfirst : view.triple index = triplet.cells := (h 0).1
    have hrest := ih fun count => (h count).2
    intro k
    rcases k with _ | _ | _ | k
    · rw [Int.natCast_zero, Int.add_zero]
      exact congrArg Triple.flag hfirst
    · exact congrArg Triple.scratch hfirst
    · exact congrArg Triple.data hfirst
    · have hindex : index + (k + 3 : Nat) = index + Triplet.width + k := by
        simp only [Triplet.width]
        omega
      rw [hindex]
      exact hrest k

theorem Displays.cellsFrom {origin : Int} {row : List Chain} (h : view.Displays origin row) :
    view.CellsFrom origin (rowCells row) := by
  rw [Chain.rowCells_eq]
  exact cellsFrom_of_spells h.spells

end View

namespace Store

variable {store : Store} {s : Chains}

theorem behind_of_displays (hpointer : store.tape.pointer = s.pointer)
    (h : store.tape.view.Displays s.origin s.row) : store.band.behind = Chains.behind s.before := by
  rw [Chains.pointer] at hpointer
  funext n
  rw [Chains.behind, append_blank_apply]
  change store.tape.get (store.tape.pointer - 1 - n) = _
  rcases Nat.lt_or_ge n (rowCells s.before.reverse).length with hlt | hge
  · have hindex : store.tape.pointer - 1 - (n : Int) =
        s.origin + ((rowCells s.before.reverse).length - 1 - n : Nat) := by omega
    have hcell := h.cellsFrom ((rowCells s.before.reverse).length - 1 - n)
    rw [Chains.row, rowCells_append, List.getD_append _ _ _ _ (by omega)] at hcell
    rw [hindex, List.getD_eq_getElem?_getD, List.getElem?_reverse hlt, ← List.getD_eq_getElem?_getD]
    exact hcell
  · rw [List.getD_eq_default _ _ (by rwa [List.length_reverse])]
    exact h.below _ (by omega)

theorem ahead_of_displays (hpointer : store.tape.pointer = s.pointer)
    (h : store.tape.view.Displays s.origin s.row) :
    store.band.ahead = Chains.ahead s.active s.after := by
  funext n
  have hindex : store.tape.pointer + (n : Int) =
      s.origin + ((rowCells s.before.reverse).length + n : Nat) := by
    rw [hpointer, Chains.pointer]
    omega
  have hcell := h.cellsFrom ((rowCells s.before.reverse).length + n)
  rw [Chains.row, rowCells_append, List.getD_append_right _ _ _ _ (Nat.le_add_right _ _),
    Nat.add_sub_cancel_left, ← hindex] at hcell
  rw [Chains.ahead_eq, append_blank_apply]
  exact hcell

/-- What was visited decides nothing. -/
theorem unvisited_bisimulation :
    device.Bisimulation device fun s t => s.tape = t.tape ∧ s.console = t.console where
  perform := by
    rintro ⟨tape, console, lowest⟩ ⟨tape', console', lowest'⟩ action ⟨rfl, rfl⟩
    cases action with
    | inc | dec | left | right | read | write => exact ⟨rfl, rfl⟩
  nonzero := by
    rintro s t ⟨htape, -⟩
    exact congrArg (fun tape : Tape => tape.current != 0) htape

end Store

namespace Tape

/-- The cells of the tape are those of the row, with the pointer on the active chain. -/
def Shows (tape : Tape) (s : Chains) : Prop := Store.Shows ⟨tape, s.console, s.origin - 3⟩ s

variable {tape : Tape}

theorem exists_shows {layout : Layout} (h : tape.layout = .ok layout) (console : Console) :
    ∃ s : Chains, s.console = console ∧ layout.Lists s ∧ tape.Shows s := by
  obtain ⟨hdigits, hchain, hpointer, hrenders⟩ :=
    (Layout.ofView_eq_ok_iff tape.confined_view).1 h
  obtain ⟨first, others, hnumerals⟩ :=
    List.exists_cons_of_length_pos (Nat.zero_lt_of_lt layout.active_lt)
  rw [hnumerals] at hdigits hchain
  obtain ⟨chain, row, hplaced⟩ := Chain.exists_placed hdigits hchain
  have hactive : layout.active < (chain :: row).length := by
    rw [← Chain.length_placed first.start, ← hplaced, ← hnumerals]
    exact layout.active_lt
  -- The row is cut where the active chain stands in it.
  obtain ⟨before, after, hrow, hbefore⟩ :=
    Brackets.exists_eq_append_of_getElem? (List.getElem?_eq_getElem hactive)
  let s : Chains := ⟨before.reverse, (chain :: row)[layout.active], after, first.start, console⟩
  have hsrow : s.row = chain :: row := by
    rw [Chains.row, List.reverse_reverse, ← hrow]
  have hlists : layout.Lists s := by
    refine ⟨?_, ?_⟩
    · rw [hnumerals, hplaced, hsrow]
    · rw [List.length_reverse, hbefore]
  have hpointer' : tape.pointer = s.pointer := by
    rw [hlists.activeNumeral] at hpointer
    exact hpointer.symm
  have hdisplays : tape.view.Displays s.origin s.row := by
    apply View.displays_iff_renders.2
    rw [← hlists.numerals]
    exact hrenders
  refine ⟨s, rfl, hlists, ?_, ?_⟩
  · simp only [hpointer', Chains.pointer]
    omega
  · apply Band.ext
    · exact Store.behind_of_displays hpointer' hdisplays
    · exact Store.ahead_of_displays hpointer' hdisplays
    · rfl
    · simp only [Store.band, Chains.band, hpointer', Chains.pointer]
      omega
    · rfl

theorem Shows.pointer_eq {s : Chains} (h : tape.Shows s) : tape.pointer = s.pointer :=
  Store.Shows.pointer_eq h

theorem Shows.exists_layout {s : Chains} (h : tape.Shows s) :
    ∃ layout : Layout, tape.layout = .ok layout ∧ layout.Lists s := Store.Shows.exists_layout h

end Tape

theorem Store.Shows.tape {store : Store} {s : Chains} (h : store.Shows s) : store.tape.Shows s := by
  obtain ⟨tape, console, lowest⟩ := store
  obtain rfl : lowest = s.origin - 3 := congrArg Band.lowest h.2
  obtain rfl : console = s.console := congrArg Band.console h.2
  exact h

/-! ### Layouts with another active numeral -/

theorem Chain.map_shift_placed (shift start : Int) (row : List Chain) :
    (placed start row).map (Numeral.shift shift) = placed (start + shift) row := by
  induction row generalizing start with
  | nil => rfl
  | cons chain row ih =>
    have hnext : Numeral.nextStart ⟨start, chain.digits⟩ + shift =
        Numeral.nextStart ⟨start + shift, chain.digits⟩ := by
      rw [nextStart_eq, nextStart_eq]
      omega
    rw [placed, List.map_cons, ih, hnext]
    rfl

namespace Layout

/-- The layout with these digits in the active numeral. The numerals on its right move as far as it
grows. -/
def withDigits (layout : Layout) (digits : List UInt8) : Layout where
  numerals :=
    let numeral := layout.activeNumeral
    let growth : Int := Triplet.width * (digits.length - numeral.width)
    layout.numerals.take layout.active ++ ⟨numeral.start, digits⟩ ::
      (layout.numerals.drop (layout.active + 1)).map (Numeral.shift growth)
  active := layout.active
  active_lt := by
    have hlt := layout.active_lt
    rw [List.length_append, List.length_take, List.length_cons]
    omega

variable {layout layout' : Layout} {s : Chains}

theorem Lists.unique (h : layout.Lists s) (h' : layout'.Lists s) : layout = layout' := by
  obtain ⟨numerals, active, hlt⟩ := layout
  obtain ⟨numerals', active', hlt'⟩ := layout'
  obtain rfl : numerals = numerals' := h.numerals.trans h'.numerals.symm
  obtain rfl : active = active' := h.active.trans h'.active.symm
  rfl

theorem numerals_withDigits (layout : Layout) (digits : List UInt8) :
    (layout.withDigits digits).numerals =
      layout.numerals.take layout.active ++ ⟨layout.activeNumeral.start, digits⟩ ::
        (layout.numerals.drop (layout.active + 1)).map
          (Numeral.shift (Triplet.width * (digits.length - layout.activeNumeral.width))) := rfl

theorem Lists.withDigits (h : layout.Lists s) (chain : Chain) :
    (layout.withDigits chain.digits).Lists { s with active := chain } := by
  refine ⟨?_, h.active⟩
  have hnext : Numeral.nextStart ⟨s.pointer, s.active.digits⟩ +
      Triplet.width * ((chain.digits.length : Int) - s.active.digits.length) =
      Numeral.nextStart ⟨s.pointer, chain.digits⟩ := by
    rw [Chain.nextStart_eq, Chain.nextStart_eq]
    simp only [Triplet.width]
    omega
  rw [Chains.placed_row, numerals_withDigits, h.take_active, h.drop_active, h.activeNumeral,
    Chain.map_shift_placed, Numeral.width, hnext]
  rfl

end Layout

namespace Machine

variable {tape : Tape} {s : Chains} {input : List UInt8}

/-- What a block does to the band of a row, its code does to a tape that shows the row. -/
theorem exists_halts_of_takes {block : Block} {b : Band} (hshows : tape.Shows s)
    (hinput : s.console = { input }) (h : Takes Band.device block s.band b) (trace : Bool) :
    ∃ program, Program.ofCode block.code = .ok program ∧
      ∃ (final : State) (store : Store),
        (unlimited program trace).Halts (.start tape input) final ∧
        final.halt? = some .completed ∧ store.lowest ≤ store.tape.pointer ∧ store.band = b ∧
        final.store.tape = store.tape ∧ final.store.console = store.console := by
  obtain ⟨program, hprogram⟩ := Program.exists_ofCode_iff.2 ⟨block, rfl⟩
  have hblock : block.code = program.code := (Program.ofCode_eq_ok_iff.1 hprogram).symm
  rw [← hshows.2] at h
  obtain ⟨cost, store, heval, hlowest, hband⟩ := Store.exists_evaluates_of_takes hshows.1 h
  have hstart : tape = (Store.ofTape tape input).tape ∧
      s.console = (Store.ofTape tape input).console := ⟨rfl, hinput⟩
  obtain ⟨store', heval', htape, hconsole⟩ := heval.transport Store.unvisited_bisimulation hstart
  exact ⟨program, hprogram, _, store, (halts_iff_evaluates hblock).2 ⟨cost, store', heval', rfl⟩,
    rfl, hlowest, hband, htape.symm, hconsole.symm⟩

/-- A block that takes the row to another one leaves a tape that shows that one. -/
theorem exists_halts_of_takes_row {block : Block} {t : Chains} (hshows : tape.Shows s)
    (hinput : s.console = { input }) (h : Takes Band.device block s.band t.band) (trace : Bool) :
    ∃ program, Program.ofCode block.code = .ok program ∧
      ∃ final, (unlimited program trace).Halts (.start tape input) final ∧
        final.halt? = some .completed ∧ final.store.console = t.console ∧
        final.store.tape.Shows t := by
  obtain ⟨program, hprogram, final, store, hfinal, hhalt, hlowest, hband, htape, hconsole⟩ :=
    exists_halts_of_takes hshows hinput h trace
  have hstore : store.Shows t := ⟨hlowest, hband⟩
  refine ⟨program, hprogram, final, hfinal, hhalt, ?_, ?_⟩
  · rw [hconsole]
    exact congrArg Band.console hband
  · rw [htape]
    exact hstore.tape

theorem exists_halts_command (action : Action) (hshows : tape.Shows s)
    (hinput : s.console = { input }) (trace : Bool) :
    ∃ program, Program.ofCode (command (.act action)).fragment = .ok program ∧
      ∃ final, (unlimited program trace).Halts (.start tape input) final ∧
        final.halt? = some .completed ∧
        final.store.console = (s.perform action).console ∧
        final.store.tape.Shows (s.perform action) := by
  obtain ⟨block, hblock, htakes⟩ := exists_block_fragment action
  rw [← hblock]
  exact exists_halts_of_takes_row hshows hinput (htakes s) trace

end Machine

end ByteTape
