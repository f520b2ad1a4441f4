import Mathlib.Data.List.Chain
import ByteTape.Proofs.Reading

/-!
# Layouts and the cells they stand for

A layout says what every cell holds: a digit takes the cells `1 0 d`, and all cells that no digit
takes are 0. `Renders` states this for any cells at all, whichever were written. A tape has a layout
exactly if its cells are those of the layout, neighbours are one spacing triplet apart, and the
pointer is on the numeral that is active: `layout_eq_ok_iff_renders`.

That reading finds nothing else is an invariant of the scan. `Reads` says what a scan has read when
it has not failed: free space, and then chains with one spacing triplet between them.
-/

namespace ByteTape

/-- The cells have the digits of the numeral. -/
def Numeral.WrittenIn (numeral : Numeral) (cell : Int → UInt8) : Prop :=
  ∀ (place : Nat) (digit : UInt8), numeral.digits[place]? = some digit →
    cell (numeral.start + Triplet.width * place) = 1 ∧
    cell (numeral.start + Triplet.width * place + 1) = 0 ∧
    cell (numeral.start + Triplet.width * place + 2) = digit

/-- The index is that of a cell of some digit. -/
def Numeral.Covers (numeral : Numeral) (index : Int) : Prop :=
  numeral.start ≤ index ∧ index < numeral.stop

/-- The cells are those of the numerals, and 0 elsewhere. -/
structure Renders (numerals : List Numeral) (cell : Int → UInt8) : Prop where
  written : ∀ numeral ∈ numerals, numeral.WrittenIn cell
  free : ∀ index, (∀ numeral ∈ numerals, ¬numeral.Covers index) → cell index = 0

/-- Numerals say what every cell is. -/
theorem Renders.unique {numerals : List Numeral} {cell cell' : Int → UInt8}
    (h : Renders numerals cell) (h' : Renders numerals cell') : cell = cell' := by
  funext index
  by_cases hcovered : ∃ numeral ∈ numerals, numeral.Covers index
  · obtain ⟨numeral, hmem, hlow, hhigh⟩ := hcovered
    obtain ⟨offset, rfl⟩ := Int.exists_add_of_le hlow
    simp only [Numeral.stop, Numeral.width, Triplet.width] at hhigh
    have hplace : offset / 3 < numeral.digits.length := by omega
    have hdigit := List.getElem?_eq_getElem hplace
    obtain ⟨hflag, hscratch, hdata⟩ := h.written numeral hmem _ _ hdigit
    obtain ⟨hflag', hscratch', hdata'⟩ := h'.written numeral hmem _ _ hdigit
    simp only [Triplet.width] at hflag hscratch hdata hflag' hscratch' hdata'
    -- The cell is one of the three of the digit at this place.
    obtain hrest | hrest | hrest : offset % 3 = 0 ∨ offset % 3 = 1 ∨ offset % 3 = 2 := by omega
    · have hindex : numeral.start + (offset : Int) =
          numeral.start + (3 : Nat) * (offset / 3 : Nat) := by omega
      rw [hindex, hflag, hflag']
    · have hindex : numeral.start + (offset : Int) =
          numeral.start + (3 : Nat) * (offset / 3 : Nat) + 1 := by omega
      rw [hindex, hscratch, hscratch']
    · have hindex : numeral.start + (offset : Int) =
          numeral.start + (3 : Nat) * (offset / 3 : Nat) + 2 := by omega
      rw [hindex, hdata, hdata']
  · have hfree : ∀ numeral ∈ numerals, ¬numeral.Covers index := by
      intro numeral hmem hcovers
      exact hcovered ⟨numeral, hmem, hcovers⟩
    rw [h.free index hfree, h'.free index hfree]

namespace Chain

theorem length_triplets_cons (chain : Chain) (row : List Chain) :
    (triplets (chain :: row)).length = chain.digits.length + 1 + (triplets row).length := by
  rw [triplets, List.flatMap_cons, List.length_append, List.length_append, List.length_map,
    List.length_singleton]
  rfl

theorem nextStart_eq (start : Int) (digits : List UInt8) :
    Numeral.nextStart ⟨start, digits⟩ = start + Triplet.width * (digits.length + 1 : Nat) := by
  simp only [Numeral.nextStart, Numeral.stop, Numeral.width, Triplet.width]
  omega

theorem placed_append (start : Int) (front back : List Chain) :
    placed start (front ++ back) =
      placed start front ++ placed (start + Triplet.width * (triplets front).length) back := by
  induction front generalizing start with
  | nil => simp [placed, triplets]
  | cons chain front ih =>
    have hstart : Numeral.nextStart ⟨start, chain.digits⟩ +
        Triplet.width * (triplets front).length =
        start + Triplet.width * (triplets (chain :: front)).length := by
      rw [nextStart_eq, length_triplets_cons]
      simp only [Triplet.width]
      omega
    rw [List.cons_append, placed, placed, ih, hstart, List.cons_append]

theorem mem_placed {start : Int} {row : List Chain} {numeral : Numeral}
    (h : numeral ∈ placed start row) :
    start ≤ numeral.start ∧ (numeral.start - start) % Triplet.width = 0 ∧ numeral.digits ≠ [] := by
  induction row generalizing start with
  | nil => cases h
  | cons chain row ih =>
    rcases List.mem_cons.1 h with rfl | hmem
    · exact ⟨Int.le_refl _, by rw [Int.sub_self]; rfl, List.cons_ne_nil _ _⟩
    · obtain ⟨hle, hmod, hdigits⟩ := ih hmem
      rw [nextStart_eq] at hle hmod
      simp only [Triplet.width] at hle hmod ⊢
      exact ⟨by omega, by omega, hdigits⟩

theorem isChain_placed (start : Int) (row : List Chain) :
    (placed start row).IsChain fun a b => b.start = a.nextStart := by
  induction row generalizing start with
  | nil => exact .nil
  | cons chain row ih =>
    cases row with
    | nil => exact .singleton _
    | cons next row => exact .cons_cons rfl (ih _)

/-- Numerals that have digits and stand side by side are those of chains. -/
theorem exists_placed {first : Numeral} {others : List Numeral}
    (hdigits : ∀ numeral ∈ first :: others, numeral.digits ≠ [])
    (hchain : (first :: others).IsChain fun a b => b.start = a.nextStart) :
    ∃ chain row, first :: others = placed first.start (chain :: row) := by
  obtain ⟨d, ds, hds⟩ := List.exists_cons_of_ne_nil (hdigits first (List.mem_cons_self ..))
  have hfirst : first = ⟨first.start, Chain.digits ⟨d, ds⟩⟩ := by
    obtain ⟨start, digits⟩ := first
    exact congrArg (Numeral.mk start) hds
  induction others generalizing first d ds with
  | nil => exact ⟨⟨d, ds⟩, [], congrArg (· :: []) hfirst⟩
  | cons next others ih =>
    obtain ⟨hnext, htail⟩ := List.isChain_cons_cons.1 hchain
    obtain ⟨e, es, hes⟩ := List.exists_cons_of_ne_nil (hdigits next (by simp))
    have hsecond : next = ⟨next.start, Chain.digits ⟨e, es⟩⟩ := by
      obtain ⟨start, digits⟩ := next
      exact congrArg (Numeral.mk start) hes
    obtain ⟨chain, row, hrow⟩ :=
      ih (fun numeral hmem => hdigits numeral (List.mem_cons_of_mem _ hmem)) htail e es hes hsecond
    refine ⟨⟨d, ds⟩, chain :: row, ?_⟩
    rw [placed, ← hfirst, ← hnext, hrow]

end Chain

namespace View

variable {view : View} {index : Int}

/-! ### Chains and cells -/

theorem spells_digits_iff {digits : List UInt8} :
    view.Spells index (digits.map .digit) ↔ Numeral.WrittenIn ⟨index, digits⟩ view.cell := by
  induction digits generalizing index with
  | nil => simp [Spells, Numeral.WrittenIn]
  | cons d digits ih =>
    have hstep : ∀ place : Nat, index + Triplet.width * (place + 1 : Nat) =
        index + Triplet.width + Triplet.width * place := by
      intro place
      simp only [Triplet.width]
      omega
    rw [List.map_cons, Spells, ih]
    constructor
    · rintro ⟨hfirst, hrest⟩ place digit hdigit
      cases place with
      | zero =>
        cases hdigit
        obtain ⟨hflag, hscratch, hdata⟩ := Triple.mk.inj hfirst
        simpa using ⟨hflag, hscratch, hdata⟩
      | succ place =>
        have hcells := hrest place digit hdigit
        simp only at hcells ⊢
        rwa [hstep]
    · intro h
      constructor
      · obtain ⟨hflag, hscratch, hdata⟩ := h 0 d rfl
        simp only [Int.natCast_zero, Int.mul_zero, Int.add_zero] at hflag hscratch hdata
        rw [triple, hflag, hscratch, hdata]
        rfl
      · intro place digit hdigit
        have hcells := h (place + 1) digit hdigit
        simp only at hcells ⊢
        rwa [hstep] at hcells

theorem spells_chain_iff {chain : Chain} {row : List Chain} {count : Nat} :
    view.Spells index (Chain.triplets (chain :: row) ++ List.replicate count .spacing) ↔
      Numeral.WrittenIn ⟨index, chain.digits⟩ view.cell ∧
        view.triple (Numeral.stop ⟨index, chain.digits⟩) = Triplet.spacing.cells ∧
        view.Spells (Numeral.nextStart ⟨index, chain.digits⟩)
          (Chain.triplets row ++ List.replicate count .spacing) := by
  have htriplets : Chain.triplets (chain :: row) ++ List.replicate count .spacing =
      chain.digits.map .digit ++
        .spacing :: (Chain.triplets row ++ List.replicate count .spacing) := by
    simp [Chain.triplets]
  rw [htriplets, spells_append_iff, spells_digits_iff, List.length_map, Spells]
  rfl

/-- What is free from a chain on is the triplet that closes it and what is free behind that. -/
theorem free_chain_iff {chain : Chain} {row : List Chain} :
    (∀ place ≥ index, (∀ numeral ∈ Chain.placed index (chain :: row), ¬numeral.Covers place) →
        view.cell place = 0) ↔
      view.triple (Numeral.stop ⟨index, chain.digits⟩) = Triplet.spacing.cells ∧
        ∀ place ≥ Numeral.nextStart ⟨index, chain.digits⟩,
          (∀ numeral ∈ Chain.placed (Numeral.nextStart ⟨index, chain.digits⟩) row,
            ¬numeral.Covers place) → view.cell place = 0 := by
  have hnext : Numeral.nextStart ⟨index, chain.digits⟩ =
    Numeral.stop ⟨index, chain.digits⟩ + 3 := rfl
  rw [triple_eq_spacing_iff, Chain.placed]
  constructor
  · intro hfree
    have hstart : index ≤ Numeral.stop ⟨index, chain.digits⟩ := by
      simp only [Numeral.stop, Triplet.width]
      omega
    -- A cell behind the first chain is not covered by it.
    have hbehind : ∀ place ≥ Numeral.stop ⟨index, chain.digits⟩,
        (∀ numeral ∈ Chain.placed (Numeral.nextStart ⟨index, chain.digits⟩) row,
          ¬numeral.Covers place) → view.cell place = 0 := by
      intro place hplace hnot
      refine hfree place (hstart.trans hplace) (List.forall_mem_cons.2 ⟨?_, hnot⟩)
      exact fun hcovers => Int.not_lt.2 hplace hcovers.2
    have hspacing : ∀ place ≥ Numeral.stop ⟨index, chain.digits⟩,
        place < Numeral.nextStart ⟨index, chain.digits⟩ → view.cell place = 0 := by
      intro place hplace hlt
      refine hbehind place hplace fun numeral hmem hcovers => ?_
      have hle := (Chain.mem_placed hmem).1
      exact Int.not_le.2 hlt (hle.trans hcovers.1)
    refine ⟨⟨hspacing _ ?_ ?_, hspacing _ ?_ ?_, hspacing _ ?_ ?_⟩,
      fun place hplace => hbehind place ?_⟩ <;> omega
  · rintro ⟨⟨hflag, hscratch, hdata⟩, hfree⟩ place hplace hnot
    obtain ⟨hfirst, hrow⟩ := List.forall_mem_cons.1 hnot
    have hbehind : Numeral.stop ⟨index, chain.digits⟩ ≤ place := by
      by_contra hlt
      exact hfirst ⟨hplace, Int.lt_of_not_ge hlt⟩
    by_cases hle : Numeral.nextStart ⟨index, chain.digits⟩ ≤ place
    · exact hfree place hle hrow
    · obtain rfl | rfl | rfl : place = Numeral.stop ⟨index, chain.digits⟩ ∨
          place = Numeral.stop ⟨index, chain.digits⟩ + 1 ∨
          place = Numeral.stop ⟨index, chain.digits⟩ + 2 := by omega
      · exact hflag
      · exact hscratch
      · exact hdata

theorem spells_row_iff {row : List Chain} {origin : Int} :
    (∀ count, view.Spells origin (Chain.triplets row ++ List.replicate count .spacing)) ↔
      (∀ numeral ∈ Chain.placed origin row, numeral.WrittenIn view.cell) ∧
        ∀ place ≥ origin, (∀ numeral ∈ Chain.placed origin row, ¬numeral.Covers place) →
          view.cell place = 0 := by
  induction row generalizing origin with
  | nil =>
    simp only [Chain.triplets, List.flatMap_nil, List.nil_append, spells_spacing_iff, Chain.placed,
      List.not_mem_nil, false_implies, implies_true, true_and, forall_const]
    constructor
    · intro h place hplace
      refine h (place - origin + 1).toNat place hplace ?_
      simp only [Triplet.width]
      omega
    · intro h count place hplace _
      exact h place hplace
  | cons chain row ih =>
    simp only [spells_chain_iff, forall_and, forall_const, ih]
    rw [free_chain_iff, Chain.placed, List.forall_mem_cons]
    tauto

theorem displays_iff_renders {origin : Int} {row : List Chain} :
    view.Displays origin row ↔ Renders (Chain.placed origin row) view.cell := by
  constructor
  · rintro ⟨hbelow, hspells⟩
    obtain ⟨hwritten, hfree⟩ := spells_row_iff.1 hspells
    refine ⟨hwritten, fun place hnot => ?_⟩
    by_cases hplace : place < origin
    · exact hbelow place hplace
    · exact hfree place (Int.not_lt.1 hplace) hnot
  · rintro ⟨hwritten, hfree⟩
    refine ⟨fun place hplace => hfree place fun numeral hmem hcovers => ?_,
      spells_row_iff.2 ⟨hwritten, fun place _ => hfree place⟩⟩
    have hle := (Chain.mem_placed hmem).1
    have hcovered := hcovers.1
    omega

end View

/-! ### What a scan has read -/

namespace Scan

/-- A scan from `first` on has come to `scan` by way of `triplets`. -/
inductive Reads (first : Int) (triplets : List Triplet) (scan : Scan) : Prop where
  /-- Nothing but free space. -/
  | free (count : Nat) (htriplets : triplets = List.replicate count .spacing)
      (hscan : scan = ⟨[], none, count⟩)
  /-- The last triplet is a digit of `chain`. -/
  | within (before spacing : Nat) (row : List Chain) (chain : Chain)
      (htriplets : triplets = List.replicate before .spacing ++ Chain.triplets row ++
        chain.digits.map .digit)
      (hscan : scan = ⟨(Chain.placed (first + Triplet.width * before) row).reverse,
        some (first + Triplet.width * (before + (Chain.triplets row).length : Nat),
          chain.digits.reverse), spacing⟩)
  /-- There is free space behind the last chain, apart from the triplet that closes it. -/
  | behind (before more : Nat) (row : List Chain) (hrow : row ≠ [])
      (htriplets : triplets = List.replicate before .spacing ++ Chain.triplets row ++
        List.replicate more .spacing)
      (hscan : scan = ⟨(Chain.placed (first + Triplet.width * before) row).reverse, none, more + 1⟩)

variable {first : Int} {triplets : List Triplet} {scan scan' : Scan}

theorem Reads.spacing (h : Reads first triplets scan) :
    Reads first (triplets ++ [.spacing]) scan.feedSpacing := by
  cases h with
  | free count htriplets hscan =>
    subst htriplets hscan
    exact .free (count + 1) List.replicate_succ'.symm rfl
  | within before spacing row chain htriplets hscan =>
    subst htriplets hscan
    refine .behind before 0 (row ++ [chain]) (by simp) ?_ ?_
    · simp [Chain.triplets]
    · have hstart : first + Triplet.width * (before + (Chain.triplets row).length : Nat) =
          first + Triplet.width * before + Triplet.width * (Chain.triplets row).length := by
        simp only [Triplet.width]
        omega
      rw [Chain.placed_append, hstart]
      simp [feedSpacing, close, Chain.placed]
  | behind before more row hrow htriplets hscan =>
    subst htriplets hscan
    refine .behind before (more + 1) row hrow ?_ rfl
    rw [List.append_assoc _ _ [_], List.replicate_succ']

theorem Reads.digit (h : Reads first triplets scan) {data : UInt8}
    (hfeed : scan.feedDigit (first + Triplet.width * triplets.length) data = .ok scan') :
    Reads first (triplets ++ [.digit data]) scan' := by
  cases h with
  | free count htriplets hscan =>
    subst htriplets hscan
    rw [feedDigit, if_neg (fun hgap => hgap.1 rfl)] at hfeed
    cases hfeed
    refine .within count count [] ⟨data, []⟩ ?_ ?_
    · simp [Chain.triplets, Chain.digits]
    · simp [Chain.triplets, Chain.digits, Chain.placed]
  | within before spacing row chain htriplets hscan =>
    subst htriplets hscan
    cases hfeed
    refine .within before spacing row ⟨chain.first, chain.rest ++ [data]⟩ ?_ ?_
    · simp [Chain.digits]
    · simp [Chain.digits]
  | behind before more row hrow htriplets hscan =>
    subst htriplets hscan
    -- Only the triplet that closes the last chain may stand before the next one.
    by_cases hmore : more = 0
    · subst hmore
      rw [feedDigit, if_neg (fun hgap => hgap.2 rfl)] at hfeed
      cases hfeed
      refine .within before 1 row ⟨data, []⟩ ?_ ?_
      · simp [Chain.digits]
      · simp [Chain.digits]
    · obtain ⟨chain, row, rfl⟩ := List.exists_cons_of_ne_nil hrow
      rw [feedDigit, if_pos ⟨by simp [Chain.placed], by simpa using hmore⟩] at hfeed
      cases hfeed

theorem reads_of_readFrom (h : readFrom {} first triplets = .ok scan) :
    Reads first triplets scan := by
  induction triplets using List.reverseRecOn generalizing scan with
  | nil =>
    cases h
    exact .free 0 rfl rfl
  | append_singleton triplets triplet ih =>
    rw [readFrom_append] at h
    cases hfront : readFrom {} first triplets with
    | error fault =>
      rw [hfront] at h
      cases h
    | ok middle =>
      rw [hfront] at h
      cases triplet with
      | spacing =>
        cases h
        exact (ih hfront).spacing
      | digit data =>
        change (do
          let scan ← middle.feedDigit (first + Triplet.width * triplets.length) data
          Except.ok scan) = _ at h
        cases hfeed : middle.feedDigit (first + Triplet.width * triplets.length) data with
        | error fault =>
          rw [hfeed] at h
          cases h
        | ok next =>
          rw [hfeed] at h
          cases h
          exact (ih hfront).digit hfeed

/-- A scan that has found numerals has read a row of chains. The last chain may lack the triplet
that closes it. -/
theorem Reads.exists_row (h : Reads first triplets scan) (hnumerals : scan.numerals ≠ []) :
    ∃ (before more : Nat) (row : List Chain),
      triplets ++ [.spacing] = List.replicate before .spacing ++ Chain.triplets row ++
        List.replicate more .spacing ∧
      scan.numerals = Chain.placed (first + Triplet.width * before) row := by
  -- Spacing ends what is being read and adds nothing.
  have hspacing := h.spacing
  rw [← numerals_feedSpacing] at hnumerals ⊢
  cases hspacing with
  | free count htriplets hscan =>
    rw [hscan] at hnumerals
    exact absurd rfl hnumerals
  | within before spacing row chain htriplets hscan =>
    have hcurrent : scan.feedSpacing.current = none := by
      obtain ⟨complete, current, spacing⟩ := scan
      cases current <;> rfl
    rw [hscan] at hcurrent
    cases hcurrent
  | behind before more row hrow htriplets hscan =>
    refine ⟨before, more, row, htriplets, ?_⟩
    rw [hscan]
    simp [numerals, close]

theorem exists_take_of_feed {view : View} {index : Int} (h : feed view scan index = .ok scan') :
    ∃ triplet : Triplet, view.triple index = triplet.cells ∧
      scan.take index triplet = .ok scan' := by
  unfold feed at h
  simp only at h
  cases htriplet : Triplet.ofCells? (view.triple index) with
  | none =>
    rw [htriplet] at h
    cases h
  | some triplet =>
    refine ⟨triplet, Triplet.ofCells?_eq_some_iff.1 htriplet, ?_⟩
    rw [htriplet] at h
    cases triplet <;> exact h

end Scan

/-! ### Sound and complete -/

namespace View

variable {view : View} {index : Int}

theorem exists_spells_of_foldlM {count : Nat} {scan scan' : Scan}
    (h : (tripletSteps index count).foldlM (Scan.feed view) scan = .ok scan') :
    ∃ triplets : List Triplet, triplets.length = count ∧ view.Spells index triplets ∧
      scan.readFrom index triplets = .ok scan' := by
  induction count generalizing index scan with
  | zero => exact ⟨[], rfl, trivial, h⟩
  | succ count ih =>
    rw [tripletSteps_succ, List.foldlM_cons] at h
    cases hfeed : Scan.feed view scan index with
    | error fault =>
      rw [hfeed] at h
      cases h
    | ok next =>
      rw [hfeed] at h
      obtain ⟨triplet, hcells, htake⟩ := Scan.exists_take_of_feed hfeed
      obtain ⟨triplets, rfl, hspells, hread⟩ := ih h
      refine ⟨triplet :: triplets, rfl, ⟨hcells, hspells⟩, ?_⟩
      rw [Scan.readFrom, htake]
      exact hread

/-- A view shows the chains of a row if it has free space on both sides of them. -/
theorem displays_of_spells {first : Int} {before more : Nat} {row : List Chain}
    (hbelow : ∀ place < first, view.cell place = 0)
    (hspells : ∀ extra, view.Spells first (List.replicate before .spacing ++
      Chain.triplets row ++ List.replicate (more + extra) .spacing)) :
    view.Displays (first + Triplet.width * before) row := by
  refine ⟨fun place hplace => ?_, fun extra => ?_⟩
  · by_cases hfirst : place < first
    · exact hbelow place hfirst
    · have hfree := (spells_append_iff.1 (spells_append_iff.1 (hspells 0)).1).1
      exact spells_spacing_iff.1 hfree place (Int.not_lt.1 hfirst) hplace
  · have hrow := hspells extra
    rw [List.append_assoc, spells_append_iff, List.length_replicate, Nat.add_comm,
      ← List.replicate_append_replicate, ← List.append_assoc, spells_append_iff] at hrow
    exact hrow.2.1

/-- Whatever numerals are read, the view shows nothing but them. -/
theorem exists_displays_of_scan (hconfined : view.Confined) {numerals : List Numeral}
    (hnumerals : numerals ≠ []) (h : Layout.scan view = .ok numerals) :
    ∃ origin row, numerals = Chain.placed origin row ∧ view.Displays origin row := by
  cases hwindow : view.window? with
  | none =>
    rw [Layout.scan, hwindow] at h
    cases h
    exact absurd rfl hnumerals
  | some window =>
    obtain ⟨first, count, hscan, -, hle, -, hcount⟩ := scan_eq hwindow
    rw [hscan] at h
    cases hfold : (tripletSteps first count).foldlM (Scan.feed view) {} with
    | error fault =>
      rw [hfold] at h
      cases h
    | ok scan =>
      rw [hfold] at h
      obtain rfl : scan.numerals = numerals := Except.ok.inj h
      obtain ⟨triplets, rfl, hspells, hread⟩ := exists_spells_of_foldlM hfold
      obtain ⟨before, more, row, htriplets, hplaced⟩ :=
        (Scan.reads_of_readFrom hread).exists_row hnumerals
      have houtside : ∀ place, place < first ∨ first + Triplet.width * triplets.length ≤ place →
          view.cell place = 0 := by
        intro place hplace
        refine hconfined place fun window' hwindow' => ?_
        obtain rfl := Option.some.inj (hwindow.symm.trans hwindow')
        omega
      -- Behind what was read there is free space for as long as one likes.
      have hall : ∀ extra, view.Spells first (List.replicate before .spacing ++
          Chain.triplets row ++ List.replicate (more + extra) .spacing) := by
        intro extra
        have hfree : view.Spells first (triplets ++ List.replicate (extra + 1) .spacing) := by
          refine spells_append_iff.2 ⟨hspells, spells_spacing_iff.2 fun place hplace _ => ?_⟩
          exact houtside place (.inr hplace)
        rwa [List.replicate_succ, ← List.singleton_append, ← List.append_assoc, htriplets,
          List.append_assoc, List.replicate_append_replicate] at hfree
      have hbelow : ∀ place < first, view.cell place = 0 := by
        intro place hplace
        exact houtside place (.inl hplace)
      exact ⟨_, row, hplaced, displays_of_spells hbelow hall⟩

end View

namespace Layout

theorem pairwise_start_lt {numerals : List Numeral}
    (h : numerals.IsChain fun a b => b.start = a.nextStart) :
    numerals.Pairwise fun a b => a.start < b.start := by
  have : IsTrans Numeral fun a b => a.start < b.start := ⟨fun _ _ _ => Int.lt_trans⟩
  apply List.IsChain.pairwise
  refine h.imp fun a b hnext => ?_
  rw [hnext]
  simp only [Numeral.nextStart, Numeral.stop, Triplet.width]
  omega

/-- No two numerals start at the pointer. -/
theorem findFinIdx?_start_iff {numerals : List Numeral}
    (h : numerals.Pairwise fun a b => a.start < b.start) {pointer : Int}
    {active : Fin numerals.length} :
    numerals.findFinIdx? (·.start == pointer) = some active ↔
      (numerals.get active).start = pointer := by
  rw [List.findFinIdx?_eq_some_iff]
  constructor
  · intro hfind
    exact beq_iff_eq.1 hfind.1
  · intro hactive
    refine ⟨beq_iff_eq.2 hactive, fun place hlt hplace => ?_⟩
    have hless := List.pairwise_iff_get.1 h place active hlt
    have hequal : (numerals.get place).start = pointer := beq_iff_eq.1 hplace
    omega

theorem ofView_eq_ok_iff_scan {view : View} {layout : Layout} :
    ofView view = .ok layout ↔ scan view = .ok layout.numerals ∧
      layout.numerals.findFinIdx? (·.start == view.pointer) =
        some ⟨layout.active, layout.active_lt⟩ := by
  constructor
  · intro h
    cases hscan : scan view with
    | error fault =>
      simp only [ofView, hscan, bind, Except.bind] at h
      cases h
    | ok numerals =>
      simp only [ofView, hscan, bind, Except.bind] at h
      cases hfind : numerals.findFinIdx? (·.start == view.pointer) with
      | none =>
        rw [hfind] at h
        cases h
      | some active =>
        rw [hfind] at h
        cases h
        exact ⟨rfl, hfind⟩
  · rintro ⟨hscan, hfind⟩
    simp only [ofView, hscan, bind, Except.bind, hfind]

/-- A view has a layout exactly if it shows that layout and nothing else. -/
theorem ofView_eq_ok_iff {view : View} (hconfined : view.Confined) {layout : Layout} :
    ofView view = .ok layout ↔
      (∀ numeral ∈ layout.numerals, numeral.digits ≠ []) ∧
      (layout.numerals.IsChain fun a b => b.start = a.nextStart) ∧
      layout.activeNumeral.start = view.pointer ∧ Renders layout.numerals view.cell := by
  obtain ⟨numerals, active, hactive⟩ := layout
  rw [ofView_eq_ok_iff_scan]
  simp only [activeNumeral]
  constructor
  · rintro ⟨hscan, hfind⟩
    have hnumerals : numerals ≠ [] := List.ne_nil_of_length_pos (Nat.zero_lt_of_lt hactive)
    obtain ⟨origin, row, rfl, hdisplays⟩ :=
      View.exists_displays_of_scan hconfined hnumerals hscan
    have hchain := Chain.isChain_placed origin row
    refine ⟨fun numeral hmem => (Chain.mem_placed hmem).2.2, hchain, ?_,
      View.displays_iff_renders.1 hdisplays⟩
    exact (findFinIdx?_start_iff (pairwise_start_lt hchain)).1 hfind
  · rintro ⟨hdigits, hchain, hpointer, hrenders⟩
    refine ⟨?_, (findFinIdx?_start_iff (pairwise_start_lt hchain)).2 hpointer⟩
    obtain ⟨numeral, hmem, hstart⟩ : ∃ numeral ∈ numerals, numeral.start = view.pointer :=
      ⟨_, List.get_mem numerals ⟨active, hactive⟩, hpointer⟩
    obtain ⟨first, others, rfl⟩ := List.exists_cons_of_ne_nil (List.ne_nil_of_mem hmem)
    obtain ⟨chain, row, hplaced⟩ := Chain.exists_placed hdigits hchain
    rw [hplaced] at hrenders hmem ⊢
    have halign : (view.pointer - first.start) % Triplet.width = 0 := by
      rw [← hstart]
      exact (Chain.mem_placed hmem).2.1
    exact View.scan_eq_placed hconfined halign (View.displays_iff_renders.2 hrenders)

end Layout

/-- **Decoding is sound, complete and unambiguous.** A tape has a layout exactly if every cell, over
all indices, is that of the layout, its numerals have digits and stand side by side, and the pointer
is on the active one. -/
theorem layout_eq_ok_iff_renders (tape : Tape) (layout : Layout) :
    tape.layout = .ok layout ↔
      (∀ numeral ∈ layout.numerals, numeral.digits ≠ []) ∧
      (layout.numerals.IsChain fun a b => b.start = a.nextStart) ∧
      layout.activeNumeral.start = tape.pointer ∧ Renders layout.numerals tape.get :=
  Layout.ofView_eq_ok_iff tape.confined_view

end ByteTape
