import Mathlib.Data.Finset.Lattice.Fold
import Mathlib.Data.List.GetD
import Mathlib.Data.Nat.Digits.Lemmas
import Mathlib.Order.Lattice.Nat
import ByteTape.Counters
import ByteTape.Proofs.Chains

/-!
# Rows of chains represent counters

A row of chains stands for counters, with each chain for the number at one position. How many digits
a chain has depends on the past: they are as many as the largest number took that has stood at its
position. So what is kept along a run is a row, counters, and the largest number at each position.
-/

namespace ByteTape

/-- How many digits a number takes, at least one. -/
def Numeral.digitCount (value : Nat) : Nat := max 1 (Nat.digits base value).length

theorem Numeral.digitCount_mono : Monotone digitCount := fun _ _ h =>
  max_le_max_left 1 (Nat.le_length_digits_le base _ _ h)

namespace Chain

/-- The chain denotes `value`, and has the digits that the larger number `peak` takes. -/
structure Holds (chain : Chain) (value peak : Nat) : Prop where
  value_eq : digitsValue chain.digits = value
  value_le : value ≤ peak
  peak_lt : peak < 256 ^ chain.digits.length
  tight : chain.rest = [] ∨ 256 ^ chain.rest.length ≤ peak

variable {chain : Chain} {value peak : Nat}

theorem holds_zero : Holds .zero 0 0 := ⟨rfl, Nat.le_refl _, by decide, .inl rfl⟩

theorem Holds.length_eq (h : chain.Holds value peak) :
    chain.digits.length = Numeral.digitCount peak := by
  rw [Numeral.digitCount, Numeral.base]
  have hle : (Nat.digits 256 peak).length ≤ chain.digits.length :=
    (Nat.digits_length_le_iff (by decide) peak).2 h.peak_lt
  have hlength : chain.digits.length = chain.rest.length + 1 := rfl
  rcases h.tight with hrest | hpow
  · rw [hrest, List.length_nil] at hlength
    omega
  · have hlt : chain.rest.length < (Nat.digits 256 peak).length :=
      (Nat.lt_digits_length_iff (by decide) peak).2 hpow
    omega

theorem Holds.isZero_iff (h : chain.Holds value peak) : chain.isZero = true ↔ value = 0 := by
  rw [← h.value_eq, digitsValue_eq_zero_iff, isZero]

theorem Holds.carry (h : chain.Holds value peak) :
    chain.carry.Holds (value + 1) (max peak (value + 1)) := by
  have hvalue : digitsValue chain.carry.digits = value + 1 := by
    rw [digits_carry, digitsValue_carried, h.value_eq]
  have hlength : chain.carry.digits.length =
      if value + 1 = 256 ^ chain.digits.length then chain.digits.length + 1
      else chain.digits.length := by
    rw [digits_carry, length_carried, h.value_eq]
  have hcons : ∀ c : Chain, c.digits.length = c.rest.length + 1 := fun _ => rfl
  have hbound := h.peak_lt
  have hle := h.value_le
  refine ⟨hvalue, Nat.le_max_right _ _, ?_, ?_⟩
  · have hown := digitsValue_lt chain.carry.digits
    rw [hvalue] at hown
    have hgrow : 256 ^ chain.digits.length ≤ 256 ^ chain.carry.digits.length := by
      refine Nat.pow_le_pow_right (by decide) ?_
      rw [hlength]
      split <;> omega
    exact max_lt (hbound.trans_le hgrow) hown
  · by_cases hgrow : value + 1 = 256 ^ chain.digits.length
    · -- All digits wrap: the number is a power of 256, and the largest so far.
      rw [if_pos hgrow, hcons] at hlength
      right
      rw [Nat.succ.inj hlength, ← hgrow]
      exact Nat.le_max_right _ _
    · rw [if_neg hgrow, hcons, hcons] at hlength
      rcases h.tight with hrest | hpow
      · left
        rw [← List.length_eq_zero_iff, Nat.succ.inj hlength, hrest]
        rfl
      · right
        rw [Nat.succ.inj hlength]
        exact hpow.trans (Nat.le_max_left _ _)

/-- A change that keeps the digits in number and the value below the peak. -/
theorem Holds.of_length_eq {other : Chain} {value' : Nat} (h : chain.Holds value peak)
    (hvalue : digitsValue other.digits = value')
    (hlength : other.digits.length = chain.digits.length) :
    other.Holds value' (max peak value') := by
  have hrest : other.rest.length = chain.rest.length := Nat.succ.inj hlength
  refine ⟨hvalue, Nat.le_max_right _ _, ?_, ?_⟩
  · have hown := digitsValue_lt other.digits
    rw [hvalue, hlength] at hown
    rw [hlength]
    exact max_lt h.peak_lt hown
  · rcases h.tight with hnil | hpow
    · left
      rw [← List.length_eq_zero_iff, hrest, hnil]
      rfl
    · right
      rw [hrest]
      exact hpow.trans (Nat.le_max_left _ _)

theorem Holds.stay (h : chain.Holds value peak) : chain.Holds value (max peak value) :=
  h.of_length_eq h.value_eq rfl

theorem Holds.dec (h : chain.Holds value peak) :
    (if chain.isZero then chain else chain.borrow).Holds (value - 1) (max peak (value - 1)) := by
  apply h.of_length_eq
  · rw [digits_lowered, digitsValue_lowered, h.value_eq]
  · rw [digits_lowered, length_lowered]

theorem Holds.load (h : chain.Holds value peak) (byte : UInt8) :
    (chain.load byte).Holds byte.toNat (max peak byte.toNat) := by
  refine h.of_length_eq ?_ ?_
  · have hvalue : digitsValue (chain.load byte).digits =
        byte.toNat + 256 * digitsValue (chain.rest.map fun _ => 0) := rfl
    rw [hvalue, digitsValue_map_zero]
    rfl
  · exact length_load byte chain

end Chain

namespace Chains

/-- The chain at a distance from the active one, to the right if it is positive. Where there is
none, zero could be made. -/
def chainAt (s : Chains) : Int → Chain
  | .ofNat 0 => s.active
  | .ofNat (n + 1) => s.after.getD n .zero
  | .negSucc n => s.before.getD n .zero

theorem chainAt_of_ne {s t : Chains} (hbefore : s.before = t.before) (hafter : s.after = t.after)
    {distance : Int} (h : distance ≠ 0) : s.chainAt distance = t.chainAt distance := by
  match distance, h with
  | .ofNat 0, h => exact absurd rfl h
  | .ofNat (n + 1), _ => exact congrArg (·.getD n .zero) hafter
  | .negSucc n, _ => exact congrArg (·.getD n .zero) hbefore

theorem chainAt_right (s : Chains) (distance : Int) :
    (s.perform .right).chainAt distance = s.chainAt (distance + 1) := by
  obtain ⟨before, active, after, origin, console⟩ := s
  match distance with
  | .ofNat 0 => cases after <;> rfl
  | .ofNat (n + 1) => cases after <;> rfl
  | .negSucc 0 => cases after <;> rfl
  | .negSucc (n + 1) => cases after <;> rfl

theorem chainAt_left (s : Chains) (distance : Int) :
    (s.perform .left).chainAt distance = s.chainAt (distance - 1) := by
  obtain ⟨before, active, after, origin, console⟩ := s
  match distance with
  | .ofNat 0 => cases before <;> rfl
  | .ofNat 1 => cases before <;> rfl
  | .ofNat (n + 2) =>
    have hdistance : Int.ofNat (n + 2) - 1 = Int.ofNat (n + 1) := by
      simp only [Int.ofNat_eq_natCast]
      omega
    rw [hdistance]
    cases before <;> rfl
  | .negSucc n => cases before <;> rfl

end Chains

/-- The row stands for the counters. The largest number that has been at each position is `peak`. -/
structure Represents (s : Chains) (t : Counters) (peak : Int → Nat) : Prop where
  console : s.console = ⟨t.input, t.output.toArray⟩
  holds : ∀ position, (s.chainAt (position - t.cursor)).Holds (t.value position) (peak position)
  low : t.visited.low = t.cursor - s.before.length
  high : t.visited.high = t.cursor + s.after.length

namespace Represents

variable {s : Chains} {t : Counters} {peak : Int → Nat}

theorem start (input : List UInt8) : Represents (.start input) (.start input) fun _ => 0 where
  console := rfl
  holds position := by
    have hzero : ∀ distance, (Chains.start input).chainAt distance = .zero := by
      intro distance
      match distance with
      | .ofNat 0 => rfl
      | .ofNat (n + 1) => rfl
      | .negSucc n => rfl
    rw [hzero]
    exact Chain.holds_zero
  low := rfl
  high := rfl

theorem stay (h : Represents s t peak) :
    Represents s t fun position => max (peak position) (t.value position) :=
  ⟨h.console, fun position => (h.holds position).stay, h.low, h.high⟩

theorem active (h : Represents s t peak) : s.active.Holds t.current (peak t.cursor) := by
  have hholds := h.holds t.cursor
  rw [Int.sub_self] at hholds
  exact hholds

/-- A change of the number under the cursor. -/
theorem set (h : Represents s t peak) {chain : Chain} {value : Nat} {console : Console}
    {input : List UInt8} (hconsole : console = ⟨input, t.output.toArray⟩)
    (hholds : chain.Holds value (max (peak t.cursor) value)) :
    Represents ⟨s.before, chain, s.after, s.origin, console⟩ { t.setCurrent value with input }
      fun position => max (peak position) ((t.setCurrent value).value position) where
  console := hconsole
  holds position := by
    change Chain.Holds (Chains.chainAt _ (position - t.cursor))
      ((t.setCurrent value).value position)
      (max (peak position) ((t.setCurrent value).value position))
    by_cases hposition : position = t.cursor
    · subst hposition
      have hvalue : (t.setCurrent value).value t.cursor = value := if_pos rfl
      rw [hvalue, Int.sub_self]
      exact hholds
    · have hvalue : (t.setCurrent value).value position = t.value position := if_neg hposition
      have hdistance : position - t.cursor ≠ 0 := by omega
      have hchain :
          Chains.chainAt ⟨s.before, chain, s.after, s.origin, console⟩ (position - t.cursor) =
          s.chainAt (position - t.cursor) := by
        apply Chains.chainAt_of_ne _ _ hdistance <;> rfl
      rw [hvalue, hchain]
      exact (h.holds position).stay
  low := h.low
  high := h.high

theorem left (h : Represents s t peak) :
    Represents (s.perform .left) (t.moveTo (t.cursor - 1)) peak where
  console := by
    have hconsole := h.console
    obtain ⟨before, active, after, origin, console⟩ := s
    cases before <;> exact hconsole
  holds position := by
    have hdistance : position - (t.cursor - 1) - 1 = position - t.cursor := by omega
    change Chain.Holds (Chains.chainAt _ (position - (t.cursor - 1))) (t.value position)
      (peak position)
    rw [Chains.chainAt_left, hdistance]
    exact h.holds position
  low := by
    have hlow := h.low
    obtain ⟨before, active, after, origin, console⟩ := s
    cases before <;> simp only [Counters.moveTo, Window.hull, Chains.perform, List.length_nil,
      List.length_cons] at hlow ⊢ <;> omega
  high := by
    have hhigh := h.high
    obtain ⟨before, active, after, origin, console⟩ := s
    cases before <;> simp only [Counters.moveTo, Window.hull, Chains.perform, List.length_cons]
      at hhigh ⊢ <;> omega

theorem right (h : Represents s t peak) :
    Represents (s.perform .right) (t.moveTo (t.cursor + 1)) peak where
  console := by
    have hconsole := h.console
    obtain ⟨before, active, after, origin, console⟩ := s
    cases after <;> exact hconsole
  holds position := by
    have hdistance : position - (t.cursor + 1) + 1 = position - t.cursor := by omega
    change Chain.Holds (Chains.chainAt _ (position - (t.cursor + 1))) (t.value position)
      (peak position)
    rw [Chains.chainAt_right, hdistance]
    exact h.holds position
  low := by
    have hlow := h.low
    obtain ⟨before, active, after, origin, console⟩ := s
    cases after <;> simp only [Counters.moveTo, Window.hull, Chains.perform, List.length_cons]
      at hlow ⊢ <;> omega
  high := by
    have hhigh := h.high
    obtain ⟨before, active, after, origin, console⟩ := s
    cases after <;> simp only [Counters.moveTo, Window.hull, Chains.perform, List.length_nil,
      List.length_cons] at hhigh ⊢ <;> omega

theorem first_eq (h : Represents s t peak) : s.active.first = UInt8.ofNat t.current := by
  apply UInt8.toNat_inj.1
  rw [UInt8.toNat_ofNat', ← h.active.value_eq, Chain.toNat_first]

theorem perform (h : Represents s t peak) (action : Action) :
    Represents (s.perform action) (t.perform action)
      fun position => max (peak position) ((t.perform action).value position) := by
  cases action with
  | inc => exact h.set h.console h.active.carry
  | dec => exact h.set h.console h.active.dec
  | left => exact h.left.stay
  | right => exact h.right.stay
  | read =>
    have hread : s.console.read = (t.input.headD 0, ⟨t.input.tail, t.output.toArray⟩) := by
      rw [h.console]
      cases t.input <;> rfl
    have hload : (s.active.load s.console.read.1).Holds (t.input.headD 0).toNat
        (max (peak t.cursor) (t.input.headD 0).toNat) := by
      rw [hread]
      exact h.active.load _
    exact h.set (congrArg Prod.snd hread) hload
  | write =>
    have hconsole : s.console.write s.active.first =
        ⟨t.input, (t.output ++ [UInt8.ofNat t.current]).toArray⟩ := by
      rw [h.console, h.first_eq, Console.write, List.push_toArray]
    exact ⟨hconsole, h.stay.holds, h.low, h.high⟩

theorem nonzero (h : Represents s t peak) :
    Chains.device.nonzero s = Counters.device.nonzero t := by
  have hzero : s.active.isZero = (t.current == 0) :=
    Bool.eq_iff_iff.2 (h.active.isZero_iff.trans beq_iff_eq.symm)
  change (!s.active.isZero) = (t.current != 0)
  rw [hzero]
  rfl

/-! ### What a row shows of its counters -/

theorem length_row (s : Chains) : s.row.length = s.before.length + s.after.length + 1 := by
  simp only [Chains.row, List.length_append, List.length_reverse, List.length_cons]
  omega

theorem getElem?_row {place : Nat} (h : place < s.row.length) :
    s.row[place]? = some (s.chainAt (place - s.before.length)) := by
  rw [length_row] at h
  rcases Nat.lt_trichotomy place s.before.length with hlt | rfl | hgt
  · obtain ⟨n, hn⟩ : ∃ n, s.before.length = place + n + 1 := ⟨s.before.length - place - 1, by omega⟩
    have hdistance : (place : Int) - s.before.length = .negSucc n := by omega
    have hplace : s.before.length - 1 - place = n := by omega
    have hn : n < s.before.length := by omega
    rw [hdistance, Chains.row, List.getElem?_append_left (by rwa [List.length_reverse]),
      List.getElem?_reverse hlt, hplace]
    exact (List.getElem?_eq_getElem hn).trans (congrArg some (List.getD_eq_getElem _ _ hn).symm)
  · rw [Int.sub_self, Chains.row, List.getElem?_append_right (by rw [List.length_reverse]),
      List.length_reverse, Nat.sub_self]
    rfl
  · obtain ⟨n, rfl⟩ : ∃ n, place = s.before.length + n + 1 :=
      ⟨place - s.before.length - 1, by omega⟩
    have hdistance :
        ((s.before.length + n + 1 : Nat) : Int) - s.before.length = .ofNat (n + 1) := by
      simp only [Int.ofNat_eq_natCast]
      omega
    have hplace : s.before.length + n + 1 - s.before.length = n + 1 := by omega
    have hn : n < s.after.length := by omega
    rw [hdistance, Chains.row, List.getElem?_append_right (by rw [List.length_reverse]; omega),
      List.length_reverse, hplace, List.getElem?_cons_succ]
    exact (List.getElem?_eq_getElem hn).trans (congrArg some (List.getD_eq_getElem _ _ hn).symm)

theorem indices_eq (h : Represents s t peak) :
    t.visited.indices =
      (List.range s.row.length).map fun (place : Nat) => t.visited.low + place := by
  have hlow := h.low
  have hhigh := h.high
  have hcount : (t.visited.high - t.visited.low + 1).toNat = s.row.length := by
    rw [length_row]
    omega
  rw [Window.indices, hcount]

/-- Whatever a chain holds can be read off the row. -/
theorem map_row {α : Type} (h : Represents s t peak) {f : Chain → α} {g : Int → α}
    (hfg : ∀ position (chain : Chain), chain.Holds (t.value position) (peak position) →
      f chain = g position) : s.row.map f = t.visited.indices.map g := by
  rw [h.indices_eq]
  refine List.ext_getElem? fun place => ?_
  rcases Nat.lt_or_ge place s.row.length with hlt | hge
  · have hdistance : (place : Int) - s.before.length = t.visited.low + place - t.cursor := by
      have hlow := h.low
      omega
    have hholds := h.holds (t.visited.low + place)
    rw [List.getElem?_map, getElem?_row hlt, List.map_map, List.getElem?_map,
      List.getElem?_range hlt, Option.map_some, Option.map_some, hdistance]
    exact congrArg some (hfg _ _ hholds)
  · rw [List.getElem?_eq_none (by simpa using hge), List.getElem?_eq_none (by simpa using hge)]

end Represents

/-! ### Runs -/

namespace Counters

/-- A block and its counters after `count` steps. -/
def stage (block : Block) (input : List UInt8) (count : Nat) : Block × Counters :=
  Block.advance device count (block, .start input)

/-- The largest number that has been at a position within `count` steps. -/
def peak (block : Block) (input : List UInt8) (count : Nat) (position : Int) : Nat :=
  (Finset.range (count + 1)).sup fun i => (stage block input i).2.value position

theorem peak_succ (block : Block) (input : List UInt8) (count : Nat) (position : Int) :
    peak block input (count + 1) position =
      max (peak block input count position) ((stage block input (count + 1)).2.value position) := by
  rw [peak, Finset.range_add_one, Finset.sup_insert, max_comm]
  rfl

theorem stage_succ (block : Block) (input : List UInt8) (count : Nat) :
    stage block input (count + 1) = Block.advance device 1 (stage block input count) := by
  rw [stage, Block.advance_add]
  rfl

/-- How a step moves the cursor, and what is visited by that. -/
theorem cursor_advance_one {s s' : Block × Counters} (h : Block.advance device 1 s = s') :
    (s'.2.cursor = s.2.cursor ∧ s'.2.visited = s.2.visited) ∨
      ((s'.2.cursor = s.2.cursor - 1 ∨ s'.2.cursor = s.2.cursor + 1) ∧
        s'.2.visited = s.2.visited.hull ⟨s'.2.cursor, s'.2.cursor⟩) := by
  obtain ⟨block, t⟩ := s
  subst h
  cases block with
  | done => exact .inl ⟨rfl, rfl⟩
  | act action rest =>
    cases action with
    | inc | dec | read | write => exact .inl ⟨rfl, rfl⟩
    | left => exact .inr ⟨.inl rfl, rfl⟩
    | right => exact .inr ⟨.inr rfl, rfl⟩
  | loop body rest =>
    refine .inl ?_
    simp only [Block.advance, Block.next?_loop]
    cases device.nonzero t <;> exact ⟨rfl, rfl⟩

/-- The window holds the positions the cursor has been at and no others. -/
theorem mem_visited_iff (block : Block) (input : List UInt8) (count : Nat) (position : Int) :
    position ∈ (stage block input count).2.visited.indices ↔
      ∃ i ≤ count, (stage block input i).2.cursor = position := by
  rw [Window.mem_indices]
  induction count generalizing position with
  | zero =>
    have hstart : (stage block input 0).2 = .start input := rfl
    constructor
    · intro h
      refine ⟨0, Nat.le_refl 0, ?_⟩
      rw [hstart] at h ⊢
      simp only [start] at h ⊢
      omega
    · rintro ⟨i, hi, rfl⟩
      obtain rfl := Nat.le_zero.1 hi
      exact ⟨Int.le_refl _, Int.le_refl _⟩
  | succ count ih =>
    have hcursor := (ih (stage block input count).2.cursor).2 ⟨count, Nat.le_refl _, rfl⟩
    have hsplit : (∃ i ≤ count + 1, (stage block input i).2.cursor = position) ↔
        (∃ i ≤ count, (stage block input i).2.cursor = position) ∨
          (stage block input (count + 1)).2.cursor = position := by
      constructor
      · rintro ⟨i, hi, rfl⟩
        rcases Nat.lt_or_eq_of_le hi with hlt | rfl
        · exact .inl ⟨i, Nat.le_of_lt_succ hlt, rfl⟩
        · exact .inr rfl
      · rintro (⟨i, hi, rfl⟩ | rfl)
        · exact ⟨i, Nat.le_succ_of_le hi, rfl⟩
        · exact ⟨count + 1, Nat.le_refl _, rfl⟩
    rw [hsplit, ← ih position]
    obtain ⟨hsame, hvisited⟩ | ⟨hmove, hvisited⟩ :=
      cursor_advance_one (stage_succ block input count).symm
    · rw [hsame, hvisited]
      constructor
      · exact .inl
      · rintro (h | rfl)
        · exact h
        · exact hcursor
    · -- The new position is next to one of the window, so the hull has no other position to add.
      rw [hvisited]
      simp only [Window.hull]
      clear hsplit ih hvisited
      omega

theorem exists_evaluates_iff {block : Block} {input : List UInt8} {t : Counters} :
    (∃ cost, block.Evaluates device (.start input) cost t) ↔
      ∃ count, stage block input count = (.done, t) := by
  constructor
  · rintro ⟨cost, heval⟩
    obtain ⟨count, hcount⟩ := heval.exists_advance .done
    rw [Block.append_done] at hcount
    exact ⟨count, hcount⟩
  · rintro ⟨count, hcount⟩
    exact Block.exists_evaluates_of_advance hcount

/-- All positions the cursor will ever have been at. -/
theorem mem_visited_of_done {block : Block} {input : List UInt8} {count : Nat}
    (hdone : (stage block input count).1 = .done) (position : Int) :
    position ∈ (stage block input count).2.visited.indices ↔
      ∃ i, (stage block input i).2.cursor = position := by
  rw [mem_visited_iff]
  constructor
  · rintro ⟨i, -, hi⟩
    exact ⟨i, hi⟩
  · rintro ⟨i, hi⟩
    rcases Nat.le_total i count with hle | hge
    · exact ⟨i, hle, hi⟩
    · refine ⟨count, Nat.le_refl _, ?_⟩
      rwa [stage, ← Block.advance_eq_of_le hdone hge]

end Counters

theorem Represents.advance_one {s : Chains} {t : Counters} {peak : Int → Nat}
    (h : Represents s t peak) (block : Block) :
    (Block.advance Chains.device 1 (block, s)).1 = (Block.advance Counters.device 1 (block, t)).1 ∧
      Represents (Block.advance Chains.device 1 (block, s)).2
        (Block.advance Counters.device 1 (block, t)).2 fun position =>
          max (peak position) ((Block.advance Counters.device 1 (block, t)).2.value position) := by
  cases block with
  | done => exact ⟨rfl, h.stay⟩
  | act action rest => exact ⟨rfl, h.perform action⟩
  | loop body rest =>
    have hrow :
        ∀ {σ : Type} (device : Device σ) (u : σ), Block.advance device 1 (.loop body rest, u) =
        (if device.nonzero u then body ++ .loop body rest else rest, u) := by
      intro σ device u
      rw [Block.advance, Block.next?_loop]
      cases device.nonzero u <;> rfl
    rw [hrow, hrow, h.nonzero]
    exact ⟨rfl, h.stay⟩

theorem represents_stage (block : Block) (input : List UInt8) (count : Nat) :
    (Chains.stage block input count).1 = (Counters.stage block input count).1 ∧
      Represents (Chains.stage block input count).2 (Counters.stage block input count).2
        (Counters.peak block input count) := by
  induction count with
  | zero => exact ⟨rfl, .start input⟩
  | succ count ih =>
    obtain ⟨hblock, hrepresents⟩ := ih
    have hrow : Chains.stage block input (count + 1) = Block.advance Chains.device 1
        ((Counters.stage block input count).1, (Chains.stage block input count).2) := by
      rw [Chains.stage, Block.advance_add, ← hblock]
      rfl
    have hpeak : Counters.peak block input (count + 1) = fun position =>
        max (Counters.peak block input count position)
          ((Counters.stage block input (count + 1)).2.value position) :=
      funext fun position => Counters.peak_succ block input count position
    rw [hrow, hpeak, Counters.stage_succ]
    exact hrepresents.advance_one _

end ByteTape
