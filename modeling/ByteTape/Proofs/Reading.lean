import ByteTape.Layout
import ByteTape.Proofs.Digits

/-!
# Reading a row of numerals

A scan reads triplets from left to right. What it makes of them depends only on the triplets, so
they are taken here as a list. Chains side by side, with free space before and behind them, give the
numerals where they stand.
-/

namespace ByteTape

namespace Scan

variable {view : View} {index : Int}

/-- Reads on by a triplet that stands at `index`. -/
def take (scan : Scan) (index : Int) : Triplet → Except LayoutFault Scan
  | .digit data => scan.feedDigit index data
  | .spacing => .ok scan.feedSpacing

def readFrom (scan : Scan) (index : Int) : List Triplet → Except LayoutFault Scan
  | [] => .ok scan
  | triplet :: rest => do
    let scan ← scan.take index triplet
    scan.readFrom (index + Triplet.width) rest

theorem feed_eq_take {triplet : Triplet} (h : view.triple index = triplet.cells) (scan : Scan) :
    feed view scan index = scan.take index triplet := by
  have hof : Triplet.ofCells? (view.triple index) = some triplet := Triplet.ofCells?_eq_some_iff.2 h
  unfold feed
  simp only [hof]
  cases triplet <;> rfl

theorem readFrom_append (scan : Scan) (index : Int) (front back : List Triplet) :
    scan.readFrom index (front ++ back) = (do
      let scan ← scan.readFrom index front
      scan.readFrom (index + Triplet.width * front.length) back) := by
  induction front generalizing scan index with
  | nil =>
    have hindex : index + Triplet.width * ([] : List Triplet).length = index := by simp
    rw [hindex]
    rfl
  | cons triplet front ih =>
    have hindex : index + Triplet.width * (triplet :: front).length =
        index + Triplet.width + Triplet.width * front.length := by
      simp only [Triplet.width, List.length_cons]
      omega
    rw [hindex, List.cons_append, readFrom, readFrom]
    cases scan.take index triplet with
    | error fault => rfl
    | ok scan => exact ih scan _

theorem readFrom_spacing (scan : Scan) (index : Int) (count : Nat) :
    scan.readFrom index (List.replicate count .spacing) = .ok (feedSpacing^[count] scan) := by
  induction count generalizing scan index with
  | zero => rfl
  | succ count ih =>
    rw [List.replicate_succ, readFrom, Function.iterate_succ_apply]
    exact ih _ _

theorem numerals_feedSpacing (scan : Scan) : scan.feedSpacing.numerals = scan.numerals := by
  obtain ⟨complete, current, spacing⟩ := scan
  cases current <;> rfl

theorem numerals_iterate_feedSpacing (scan : Scan) (count : Nat) :
    (feedSpacing^[count] scan).numerals = scan.numerals := by
  induction count with
  | zero => rfl
  | succ count ih => rw [Function.iterate_succ_apply', numerals_feedSpacing, ih]

theorem iterate_feedSpacing (count : Nat) : feedSpacing^[count] {} = ⟨[], none, count⟩ := by
  induction count with
  | zero => rfl
  | succ count ih =>
    rw [Function.iterate_succ_apply', ih]
    rfl

theorem readFrom_digits (complete : List Numeral) (start : Int) (digits : List UInt8)
    (spacing : Nat)
    (index : Int) (ds : List UInt8) :
    readFrom ⟨complete, some (start, digits), spacing⟩ index (ds.map .digit) =
      .ok ⟨complete, some (start, ds.reverse ++ digits), spacing⟩ := by
  induction ds generalizing digits index with
  | nil => rfl
  | cons d ds ih =>
    rw [List.map_cons, readFrom, List.reverse_cons, List.append_assoc]
    exact ih (d :: digits) _

/-- A scan at the start of a chain: nothing is being read, and the last numeral, if any, has its
spacing behind it. -/
def Ready (scan : Scan) : Prop := scan.current = none ∧ (scan.complete = [] ∨ scan.spacing = 1)

theorem readFrom_numeral {scan : Scan} (h : scan.Ready) (index : Int) (chain : Chain) :
    scan.readFrom index (Numeral.triplets ⟨index, chain.digits⟩) =
      .ok ⟨⟨index, chain.digits⟩ :: scan.complete, none, 1⟩ := by
  obtain ⟨complete, current, spacing⟩ := scan
  obtain ⟨hcurrent, hspacing⟩ := h
  simp only at hcurrent hspacing
  subst hcurrent
  have hfirst : feedDigit ⟨complete, none, spacing⟩ index chain.first =
      .ok ⟨complete, some (index, [chain.first]), spacing⟩ := by
    refine if_neg ?_
    rintro ⟨hcomplete, hone⟩
    exact hspacing.elim hcomplete hone
  have htriplets : Numeral.triplets ⟨index, chain.digits⟩ =
      .digit chain.first :: (chain.rest.map .digit ++ [.spacing]) := rfl
  rw [htriplets, readFrom, take, hfirst]
  change readFrom _ _ (chain.rest.map .digit ++ [.spacing]) = _
  rw [readFrom_append, readFrom_digits]
  change Except.ok (feedSpacing _) = _
  simp [feedSpacing, close, Chain.digits]

end Scan

/-- Chains side by side as numerals, the first at `start`. -/
def Chain.placed (start : Int) : List Chain → List Numeral
  | [] => []
  | chain :: rest =>
    ⟨start, chain.digits⟩ :: placed (Numeral.nextStart ⟨start, chain.digits⟩) rest

/-- The triplets of chains side by side. -/
def Chain.triplets (row : List Chain) : List Triplet :=
  row.flatMap fun chain => chain.digits.map .digit ++ [.spacing]

namespace Scan

theorem Ready.readFrom_placed {scan : Scan} (h : scan.Ready) (start : Int) (row : List Chain) :
    ∃ scan' : Scan, scan.readFrom start (Chain.triplets row) = .ok scan' ∧ scan'.current = none ∧
      scan'.complete = (Chain.placed start row).reverse ++ scan.complete := by
  induction row generalizing scan start with
  | nil => exact ⟨scan, rfl, h.1, rfl⟩
  | cons chain row ih =>
    have hready : Ready ⟨⟨start, chain.digits⟩ :: scan.complete, none, 1⟩ := ⟨rfl, .inr rfl⟩
    have hstart :
        start + Triplet.width * (chain.digits.map Triplet.digit ++ [Triplet.spacing]).length =
        Numeral.nextStart ⟨start, chain.digits⟩ := by
      simp only [Numeral.nextStart, Numeral.stop, Numeral.width, List.length_append,
        List.length_map, List.length_singleton, Triplet.width]
      omega
    obtain ⟨scan', hread, hcurrent, hcomplete⟩ :=
      ih hready (Numeral.nextStart ⟨start, chain.digits⟩)
    refine ⟨scan', ?_, hcurrent, ?_⟩
    · have hsplit : Chain.triplets (chain :: row) =
          Numeral.triplets ⟨start, chain.digits⟩ ++ Chain.triplets row := rfl
      rw [hsplit, readFrom_append, readFrom_numeral h]
      change readFrom _ _ _ = _
      rw [← hread, ← hstart]
      rfl
    · rw [hcomplete, Chain.placed, List.reverse_cons, List.append_assoc]
      rfl

/-- Free space, chains side by side, and free space. -/
theorem exists_readFrom_row (start : Int) (before : Nat) (row : List Chain) (behind : Nat) :
    ∃ scan' : Scan, readFrom {} (start - Triplet.width * before)
        (List.replicate before .spacing ++ Chain.triplets row ++ List.replicate behind .spacing) =
          .ok scan' ∧ scan'.numerals = Chain.placed start row := by
  have hready : Ready ⟨[], none, before⟩ := ⟨rfl, .inl rfl⟩
  have hstart : start - Triplet.width * before +
      Triplet.width * (List.replicate before Triplet.spacing).length = start := by
    rw [List.length_replicate]
    omega
  obtain ⟨scan', hread, hcurrent, hcomplete⟩ := hready.readFrom_placed start row
  refine ⟨feedSpacing^[behind] scan', ?_, ?_⟩
  · rw [List.append_assoc, readFrom_append, readFrom_spacing, iterate_feedSpacing]
    change readFrom _ _ _ = _
    rw [hstart, readFrom_append, hread]
    exact readFrom_spacing _ _ _
  · rw [numerals_iterate_feedSpacing, numerals, close, hcurrent, hcomplete, List.append_nil,
      List.reverse_reverse]

end Scan

/-! ### Views -/

/-- Every third index, from `index` on. -/
def tripletSteps (index : Int) (count : Nat) : List Int :=
  (List.range count).map fun (step : Nat) => index + Triplet.width * step

theorem tripletSteps_succ (index : Int) (count : Nat) :
    tripletSteps index (count + 1) = index :: tripletSteps (index + Triplet.width) count := by
  have hstep : ∀ step : Nat, index + Triplet.width * (step + 1 : Nat) =
      index + Triplet.width + Triplet.width * step := by
    intro step
    simp only [Triplet.width]
    omega
  rw [tripletSteps, List.range_succ_eq_map, List.map_cons, List.map_map]
  simp only [Function.comp_def, Nat.succ_eq_add_one, hstep, tripletSteps]
  simp

theorem tripletSteps_add (index : Int) (count more : Nat) :
    tripletSteps index (count + more) =
      tripletSteps index count ++ tripletSteps (index + Triplet.width * count) more := by
  induction count generalizing index with
  | zero => simp [tripletSteps]
  | succ count ih =>
    have hindex : index + Triplet.width + Triplet.width * count =
        index + Triplet.width * (count + 1 : Nat) := by
      simp only [Triplet.width]
      omega
    rw [Nat.add_right_comm, tripletSteps_succ, ih, tripletSteps_succ, List.cons_append, hindex]

namespace View

variable {view : View} {index : Int}

/-- The triplets stand side by side from `index` on. -/
def Spells (view : View) (index : Int) : List Triplet → Prop
  | [] => True
  | triplet :: rest =>
    view.triple index = triplet.cells ∧ view.Spells (index + Triplet.width) rest

theorem spells_append_iff {front back : List Triplet} :
    view.Spells index (front ++ back) ↔
      view.Spells index front ∧ view.Spells (index + Triplet.width * front.length) back := by
  induction front generalizing index with
  | nil => simp [Spells]
  | cons triplet front ih =>
    have hindex : index + Triplet.width * (triplet :: front).length =
        index + Triplet.width + Triplet.width * front.length := by
      simp only [Triplet.width, List.length_cons]
      omega
    rw [List.cons_append, Spells, Spells, ih, hindex, and_assoc]

theorem triple_eq_spacing_iff :
    view.triple index = Triplet.spacing.cells ↔
      view.cell index = 0 ∧ view.cell (index + 1) = 0 ∧ view.cell (index + 2) = 0 := by
  rw [triple, Triplet.cells, Triple.mk.injEq]

theorem spells_spacing_iff {count : Nat} :
    view.Spells index (List.replicate count .spacing) ↔
      ∀ place, index ≤ place → place < index + Triplet.width * count → view.cell place = 0 := by
  induction count generalizing index with
  | zero =>
    simp only [List.replicate_zero, Spells, true_iff]
    omega
  | succ count ih =>
    rw [List.replicate_succ, Spells, ih, triple_eq_spacing_iff]
    simp only [Triplet.width]
    constructor
    · rintro ⟨⟨hflag, hscratch, hdata⟩, hrest⟩ place hlow hhigh
      by_cases hplace : index + 3 ≤ place
      · exact hrest place (by omega) (by omega)
      · obtain rfl | rfl | rfl : place = index ∨ place = index + 1 ∨ place = index + 2 := by omega
        · exact hflag
        · exact hscratch
        · exact hdata
    · intro h
      refine ⟨⟨h _ ?_ ?_, h _ ?_ ?_, h _ ?_ ?_⟩, fun place hlow hhigh => h place ?_ ?_⟩ <;> omega

theorem foldlM_feed_of_spells {triplets : List Triplet} (h : view.Spells index triplets)
    (scan : Scan) :
    (tripletSteps index triplets.length).foldlM (Scan.feed view) scan =
      scan.readFrom index triplets := by
  induction triplets generalizing index scan with
  | nil => rfl
  | cons triplet triplets ih =>
    rw [List.length_cons, tripletSteps_succ, List.foldlM_cons, Scan.feed_eq_take h.1, Scan.readFrom]
    cases scan.take index triplet with
    | error fault => rfl
    | ok scan => exact ih h.2 scan

/-- The cells from `index` on are those of the list, and then all are 0. -/
def CellsFrom (view : View) (index : Int) (cells : List UInt8) : Prop :=
  ∀ k : Nat, view.cell (index + k) = cells.getD k 0

theorem CellsFrom.spells {triplets : List Triplet}
    (h : view.CellsFrom index (triplets.flatMap fun triplet => triplet.cells.toList))
    (count : Nat) :
    view.Spells index (triplets ++ List.replicate count .spacing) := by
  induction triplets generalizing index with
  | nil =>
    refine spells_spacing_iff.2 fun place hlow _ => ?_
    have hplace : index + ((place - index).toNat : Int) = place := by omega
    rw [← hplace, h]
    rfl
  | cons triplet triplets ih =>
    refine ⟨?_, ih fun k => ?_⟩
    · have hflag : view.cell index = triplet.cells.flag :=
        (congrArg view.cell (Int.add_zero index)).symm.trans (h 0)
      have hscratch : view.cell (index + 1) = triplet.cells.scratch := h 1
      have hdata : view.cell (index + 2) = triplet.cells.data := h 2
      rw [triple, hflag, hscratch, hdata]
    · have hindex : index + Triplet.width + (k : Int) = index + (k + 3 : Nat) := by
        simp only [Triplet.width]
        omega
      rw [hindex]
      exact h (k + 3)

theorem foldlM_feed_of_spacing {count : Nat}
    (h : view.Spells index (List.replicate count .spacing)) (scan : Scan) :
    (tripletSteps index count).foldlM (Scan.feed view) scan =
      .ok (Scan.feedSpacing^[count] scan) := by
  have hfold := foldlM_feed_of_spells h scan
  rwa [List.length_replicate, Scan.readFrom_spacing] at hfold

/-- Free space behind what is read has no numerals. -/
theorem map_numerals_foldlM_add {count more : Nat}
    (h : view.Spells (index + Triplet.width * count) (List.replicate more .spacing))
    (scan : Scan) :
    Scan.numerals <$> (tripletSteps index (count + more)).foldlM (Scan.feed view) scan =
      Scan.numerals <$> (tripletSteps index count).foldlM (Scan.feed view) scan := by
  rw [tripletSteps_add, List.foldlM_append]
  cases (tripletSteps index count).foldlM (Scan.feed view) scan with
  | error fault => rfl
  | ok part =>
    change Scan.numerals <$> (tripletSteps _ more).foldlM (Scan.feed view) part = _
    rw [foldlM_feed_of_spacing h]
    exact congrArg Except.ok (Scan.numerals_iterate_feedSpacing part more)

/-- Free space before the first numeral does not count. -/
theorem map_numerals_foldlM_spacing (indices : List Int) (current : Option (Int × List UInt8))
    (spacing spacing' : Nat) :
    Scan.numerals <$> indices.foldlM (Scan.feed view) ⟨[], current, spacing⟩ =
      Scan.numerals <$> indices.foldlM (Scan.feed view) ⟨[], current, spacing'⟩ := by
  induction indices generalizing current spacing spacing' with
  | nil => cases current <;> rfl
  | cons index indices ih =>
    rw [List.foldlM_cons, List.foldlM_cons]
    cases htriplet : Triplet.ofCells? (view.triple index) with
    | none => simp only [Scan.feed, htriplet]
    | some triplet =>
      rw [Scan.feed_eq_take (Triplet.ofCells?_eq_some_iff.1 htriplet),
        Scan.feed_eq_take (Triplet.ofCells?_eq_some_iff.1 htriplet)]
      cases triplet with
      | digit data =>
        cases current with
        | none => exact ih _ spacing spacing'
        | some chain => exact ih _ spacing spacing'
      | spacing =>
        cases current with
        | none => exact ih none (spacing + 1) (spacing' + 1)
        | some chain => rfl

theorem map_numerals_foldlM_add_left {before count : Nat}
    (h : view.Spells index (List.replicate before .spacing)) :
    Scan.numerals <$> (tripletSteps index (before + count)).foldlM (Scan.feed view) {} =
      Scan.numerals <$>
        (tripletSteps (index + Triplet.width * before) count).foldlM (Scan.feed view) {} := by
  rw [tripletSteps_add, List.foldlM_append, foldlM_feed_of_spacing h, Scan.iterate_feedSpacing]
  exact map_numerals_foldlM_spacing _ none before 0

/-- All cells outside the window are 0. -/
def Confined (view : View) : Prop :=
  ∀ index, (∀ window ∈ view.window?, index < window.low ∨ window.high < index) →
    view.cell index = 0

/-- The view shows nothing but chains side by side. -/
structure Displays (view : View) (origin : Int) (row : List Chain) : Prop where
  below : ∀ place < origin, view.cell place = 0
  spells : ∀ count, view.Spells origin (Chain.triplets row ++ List.replicate count .spacing)

/-- What a scan reads: every third cell from before the window to behind it. -/
theorem scan_eq {window : Window} (hwindow : view.window? = some window) :
    ∃ (first : Int) (count : Nat),
      Layout.scan view = Scan.numerals <$> (tripletSteps first count).foldlM (Scan.feed view) {} ∧
        (view.pointer - first) % Triplet.width = 0 ∧ first ≤ window.low ∧
          window.low < first + Triplet.width ∧ window.high < first + Triplet.width * count := by
  let first := window.low - (window.low - view.pointer) % Triplet.width
  refine ⟨first, ((window.high - first) / Triplet.width + 1).toNat, ?_, ?_, ?_, ?_, ?_⟩
  · rw [Layout.scan, hwindow]
    rfl
  all_goals
    simp only [Triplet.width, first]
    omega

theorem exists_radius (view : View) (center : Int) : ∃ radius : Nat, ∀ window ∈ view.window?,
    center - Triplet.width * radius ≤ window.low ∧
      window.high < center + Triplet.width * radius := by
  cases hwindow : view.window? with
  | none => exact ⟨0, fun window hmem => by cases hmem⟩
  | some window =>
    refine ⟨(center - window.low).toNat + (window.high - center + 1).toNat, ?_⟩
    rintro _ ⟨⟩
    simp only [Triplet.width]
    omega

/-- What is read does not depend on the window: any stretch of triplets will do that covers it. -/
theorem scan_eq_of_covers (hconfined : view.Confined) {first : Int} {count : Nat}
    (halign : (view.pointer - first) % Triplet.width = 0)
    (hcovers : ∀ window ∈ view.window?,
      first ≤ window.low ∧ window.high < first + Triplet.width * count) :
    Layout.scan view = Scan.numerals <$> (tripletSteps first count).foldlM (Scan.feed view) {} := by
  cases hwindow : view.window? with
  | none =>
    have hspells : view.Spells first (List.replicate count .spacing) := by
      refine spells_spacing_iff.2 fun place _ _ => hconfined place fun window hmem => ?_
      rw [hwindow] at hmem
      cases hmem
    rw [foldlM_feed_of_spacing hspells, Layout.scan, hwindow]
    exact congrArg Except.ok (Scan.numerals_iterate_feedSpacing {} count).symm
  | some window =>
    obtain ⟨hlow, hhigh⟩ := hcovers window hwindow
    obtain ⟨start, length, hscan, hstart, hle, hlt, hlength⟩ := scan_eq hwindow
    have hfree : ∀ (index : Int) (more : Nat),
        index + Triplet.width * more ≤ window.low ∨ window.high < index →
          view.Spells index (List.replicate more .spacing) := by
      intro index more houtside
      refine spells_spacing_iff.2 fun place hplace hplace' => hconfined place fun window' hmem => ?_
      obtain rfl := Option.some.inj (hwindow.symm.trans hmem)
      omega
    obtain ⟨before, rfl⟩ : ∃ before : Nat, start = first + Triplet.width * before := by
      refine ⟨((start - first) / 3).toNat, ?_⟩
      simp only [Triplet.width] at halign hstart hlt ⊢
      omega
    -- Both stretches are part of one that goes on behind them as far as the two together.
    have hcount : before + (length + count) = count + (before + length) := by omega
    calc Layout.scan view
        = Scan.numerals <$> (tripletSteps (first + Triplet.width * before) length).foldlM
            (Scan.feed view) {} := hscan
      _ = Scan.numerals <$> (tripletSteps (first + Triplet.width * before) (length + count)).foldlM
            (Scan.feed view) {} := (map_numerals_foldlM_add (hfree _ _ (.inr hlength)) {}).symm
      _ = Scan.numerals <$>
            (tripletSteps first (count + (before + length))).foldlM (Scan.feed view) {} := by
          rw [← hcount]
          exact (map_numerals_foldlM_add_left (hfree _ _ (.inl hle))).symm
      _ = Scan.numerals <$> (tripletSteps first count).foldlM (Scan.feed view) {} :=
          map_numerals_foldlM_add (hfree _ _ (.inr hhigh)) {}

theorem exists_scan_eq (hconfined : view.Confined) : ∃ enough : Nat, ∀ radius ≥ enough,
    Layout.scan view = Scan.numerals <$>
      (tripletSteps (view.pointer - Triplet.width * radius) (2 * radius)).foldlM
        (Scan.feed view) {} := by
  obtain ⟨enough, henough⟩ := view.exists_radius view.pointer
  refine ⟨enough, fun radius hradius => scan_eq_of_covers hconfined ?_ ?_⟩
  · simp only [Triplet.width]
    omega
  · intro window hwindow
    obtain ⟨hlow, hhigh⟩ := henough window hwindow
    simp only [Triplet.width] at hlow hhigh ⊢
    omega

theorem scan_eq_placed {origin : Int} {row : List Chain} (hconfined : view.Confined)
    (halign : (view.pointer - origin) % Triplet.width = 0) (h : view.Displays origin row) :
    Layout.scan view = .ok (Chain.placed origin row) := by
  obtain ⟨radius, hradius⟩ := view.exists_radius origin
  have hspells : view.Spells (origin - Triplet.width * radius)
      (List.replicate radius .spacing ++ Chain.triplets row ++
        List.replicate radius .spacing) := by
    have horigin : origin - Triplet.width * radius +
        Triplet.width * (List.replicate radius Triplet.spacing).length = origin := by
      rw [List.length_replicate]
      omega
    rw [List.append_assoc, spells_append_iff, horigin, spells_spacing_iff]
    refine ⟨fun place _ hplace => h.below place ?_, h.spells radius⟩
    rwa [Int.sub_add_cancel] at hplace
  obtain ⟨whole, hwhole, hnumerals⟩ := Scan.exists_readFrom_row origin radius row radius
  rw [← foldlM_feed_of_spells hspells] at hwhole
  rw [scan_eq_of_covers hconfined ?_ ?_, hwhole, ← hnumerals]
  · rfl
  · simp only [Triplet.width] at halign ⊢
    omega
  · intro window hwindow
    obtain ⟨hlow, hhigh⟩ := hradius window hwindow
    refine ⟨hlow, ?_⟩
    rw [List.length_append, List.length_append, List.length_replicate]
    simp only [Triplet.width] at hhigh ⊢
    omega

end View

theorem Tape.confined_view (tape : Tape) : tape.view.Confined := by
  intro index houtside
  cases hwritten : tape.written? with
  | none => exact get_of_written?_eq_none hwritten index
  | some window => exact get_of_outside hwritten (houtside window hwritten)

end ByteTape
