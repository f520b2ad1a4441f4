import ByteTape.Proofs.Chain

/-!
# Carry and growth

An increment carries along a chain, and if every digit wraps the chain grows by a digit. The chains
further right make room: the spacing behind each is marked on the way to the last chain, and on the
way back every marked chain moves by a triplet.
-/

namespace ByteTape

open scoped Stream'
open Phrase
open Block (Takes)

/-- The cells of chains side by side, each with its spacing. -/
def rowCells (row : List Chain) : List UInt8 :=
  row.flatMap fun chain => chainCells chain.digits ++ [0, 0, 0]

@[simp]
theorem rowCells_nil : rowCells [] = [] := rfl

@[simp]
theorem rowCells_cons (chain : Chain) (row : List Chain) :
    rowCells (chain :: row) = chainCells chain.digits ++ [0, 0, 0] ++ rowCells row := rfl

@[simp]
theorem rowCells_append (row row' : List Chain) :
    rowCells (row ++ row') = rowCells row ++ rowCells row' := List.flatMap_append

/-- Cells from some index on, all 0. -/
abbrev blank : Stream' UInt8 := Stream'.const 0

theorem blank_eq : (0 :: blank : Stream' UInt8) = blank := (Stream'.const_eq 0).symm

theorem three_blank_eq : (0 :: 0 :: 0 :: blank : Stream' UInt8) = blank := by
  rw [blank_eq, blank_eq, blank_eq]

namespace Operation

/-- The cells of chains that are marked to move. -/
def markedCells (row : List Chain) : List UInt8 :=
  row.flatMap fun chain => chainCells chain.digits ++ [0, 1, 0]

/-- The cells of chains that have moved, each with the room it moved over. -/
def shiftedCells (row : List Chain) : List UInt8 :=
  row.flatMap fun chain => [0, 0, 0] ++ chainCells chain.digits

variable {a b : Stream' UInt8} {l : Int} {m : Nat} {c : Console}

theorem shiftedCells_append_blank (row : List Chain) :
    shiftedCells row ++ₛ blank = 0 :: 0 :: 0 :: (rowCells row ++ₛ blank) := by
  induction row with
  | nil => exact three_blank_eq.symm
  | cons chain row ih =>
    have hhead : shiftedCells (chain :: row) =
        [0, 0, 0] ++ chainCells chain.digits ++ shiftedCells row := rfl
    rw [hhead, rowCells_cons, Stream'.append_append_stream, ih]
    simp only [Stream'.append_append_stream, Stream'.cons_append_stream, Stream'.nil_append_stream]

theorem takes_markEnds (row : List Chain) :
    Takes Band.device markEnds ⟨b, rowCells row ++ₛ blank, l, m, c⟩
      ⟨(markedCells row).reverse ++ₛ b, blank, l, m + (rowCells row).length, c⟩ := by
  induction row generalizing b m with
  | nil => exact takes_loop_leave rfl
  | cons chain row ih =>
    have hmarked : (markedCells (chain :: row)).reverse ++ₛ b =
        (markedCells row).reverse ++ₛ
          (0 :: 1 :: 0 :: ((chainCells chain.digits).reverse ++ₛ b)) := by
      simp [markedCells, Stream'.append_append_stream, Stream'.cons_append_stream]
    have hmargin : m + (rowCells (chain :: row)).length =
        m + 3 * chain.digits.length + 3 + (rowCells row).length := by
      simp only [rowCells_cons, List.length_append, length_chainCells, List.length_cons,
        List.length_nil]
      omega
    have hcells : rowCells (chain :: row) ++ₛ blank =
        chainCells chain.digits ++ₛ (0 :: 0 :: 0 :: (rowCells row ++ₛ blank)) := by
      simp only [rowCells_cons, Stream'.append_append_stream, Stream'.cons_append_stream,
        Stream'.nil_append_stream]
    have hround : Takes Band.device (chainEnd ++ go 1 ++ inc ++ go 2)
        ⟨b, chainCells chain.digits ++ₛ (0 :: 0 :: 0 :: (rowCells row ++ₛ blank)), l, m, c⟩
        ⟨0 :: 1 :: 0 :: ((chainCells chain.digits).reverse ++ₛ b), rowCells row ++ₛ blank, l,
          m + 3 * chain.digits.length + 3, c⟩ := by
      rw [Block.append_assoc chainEnd, Block.append_assoc chainEnd]
      exact (takes_chainEnd chain.digits).append (.straight rfl)
    rw [hmarked, hmargin, hcells]
    exact takes_loop_again rfl hround ih

theorem reverse_markedCells_concat (row : List Chain) (chain : Chain) :
    (markedCells (row ++ [chain])).reverse ++ₛ b =
      0 :: 1 :: 0 :: ((chainCells chain.digits).reverse ++ₛ ((markedCells row).reverse ++ₛ b)) := by
  simp [markedCells, Stream'.append_append_stream, Stream'.cons_append_stream]

/-- What is behind the end of marked chains is a triplet of spacing, marked or not. -/
theorem exists_reverse_markedCells (row : List Chain) (b : Stream' UInt8) :
    ∃ (y : UInt8) (b' : Stream' UInt8),
      (markedCells row).reverse ++ₛ (0 :: 0 :: 0 :: b) = 0 :: y :: 0 :: b' := by
  rcases List.eq_nil_or_concat' row with rfl | ⟨row, chain, rfl⟩
  · exact ⟨0, b, rfl⟩
  · exact ⟨1, _, reverse_markedCells_concat row chain⟩

theorem takes_shiftMarked (row : List Chain) {y : UInt8} {b' : Stream' UInt8}
    (h : (markedCells row).reverse ++ₛ (0 :: 0 :: 0 :: b) = 0 :: y :: 0 :: b') :
    Takes Band.device shiftMarked ⟨0 :: b', y :: 0 :: a, l, m + (rowCells row).length + 1, c⟩
      ⟨0 :: b, 0 :: 0 :: (shiftedCells row ++ₛ a), l, m + 1, c⟩ := by
  -- From the last chain back: what has moved already is part of `a`.
  induction row using List.reverseRecOn generalizing a y b' with
  | nil =>
    obtain ⟨rfl, rfl⟩ : (0 : UInt8) = y ∧ b = b' := by
      have htail := congrArg Stream'.tail h
      exact ⟨congrArg Stream'.head htail, congrArg (Stream'.tail ∘ Stream'.tail) htail⟩
    exact takes_loop_leave rfl
  | append_singleton row chain ih =>
    obtain ⟨x, b'', hrow⟩ := exists_reverse_markedCells row b
    rw [reverse_markedCells_concat, hrow] at h
    obtain ⟨rfl, rfl⟩ :
        (1 : UInt8) = y ∧ (chainCells chain.digits).reverse ++ₛ (0 :: x :: 0 :: b'') = b' := by
      have htail := congrArg Stream'.tail h
      exact ⟨congrArg Stream'.head htail, congrArg (Stream'.tail ∘ Stream'.tail) htail⟩
    have hmargin : m + (rowCells (row ++ [chain])).length + 1 =
        m + (rowCells row).length + 3 + 3 * chain.digits.length + 1 := by
      simp only [rowCells_append, rowCells_cons, rowCells_nil, List.length_append,
        length_chainCells, List.length_cons, List.length_nil]
      omega
    have hshifted : shiftedCells (row ++ [chain]) ++ₛ a =
        shiftedCells row ++ₛ (0 :: 0 :: 0 :: (chainCells chain.digits ++ₛ a)) := by
      simp [shiftedCells, Stream'.append_append_stream, Stream'.cons_append_stream]
    have hmove : Takes Band.device (go (-3) ++ loop (shiftDigit ++ go (-3))) _ _ :=
      takes_scanLeft (fun done => 0 :: 0 :: 0 :: (chainCells done ++ₛ a))
        (fun d done b m => takes_shiftDigit d) chain.digits [] x 0 (b := b'') (l := l)
        (m := m + (rowCells row).length) (c := c)
    rw [List.append_nil] at hmove
    have hsplit : dec ++ go (-4) ++ loop (shiftDigit ++ go (-3)) ++ go 1 =
        dec ++ go (-1) ++ (go (-3) ++ loop (shiftDigit ++ go (-3))) ++ go 1 := rfl
    have hround : Takes Band.device (dec ++ go (-4) ++ loop (shiftDigit ++ go (-3)) ++ go 1)
        ⟨0 :: ((chainCells chain.digits).reverse ++ₛ (0 :: x :: 0 :: b'')), 1 :: 0 :: a, l,
          m + (rowCells row).length + 3 + 3 * chain.digits.length + 1, c⟩
        ⟨0 :: b'', x :: 0 :: 0 :: 0 :: 0 :: (chainCells chain.digits ++ₛ a), l,
          m + (rowCells row).length + 1, c⟩ := by
      rw [hsplit]
      calc
        Takes Band.device dec
            ⟨0 :: ((chainCells chain.digits).reverse ++ₛ (0 :: x :: 0 :: b'')), 1 :: 0 :: a, l,
              m + (rowCells row).length + 3 + 3 * chain.digits.length + 1, c⟩ _ := takes_dec_one
        Takes Band.device (go (-1)) _
            ⟨(chainCells chain.digits).reverse ++ₛ (0 :: x :: 0 :: b''), 0 :: 0 :: 0 :: a, l,
              m + (rowCells row).length + 3 + 3 * chain.digits.length, c⟩ := .straight rfl
        Takes Band.device (go (-3) ++ loop (shiftDigit ++ go (-3))) _ _ := hmove
        Takes Band.device (go 1) _ _ := .straight rfl
    rw [hmargin, hshifted]
    exact takes_loop_again rfl hround (ih hrow)

/-- From the spacing behind a chain, which becomes a digit 0 with spacing behind it. -/
theorem takes_grow (row : List Chain) :
    Takes Band.device grow ⟨1 :: b, 1 :: 0 :: (rowCells row ++ₛ blank), l, m + 1, c⟩
      ⟨1 :: b, 0 :: 0 :: 0 :: 0 :: 0 :: (rowCells row ++ₛ blank), l, m + 1, c⟩ := by
  obtain ⟨y, b', hmarked⟩ := exists_reverse_markedCells row b
  have hmark := takes_markEnds row (b := 0 :: 0 :: 0 :: b) (l := l) (m := m + 3) (c := c)
  have hmargin : m + 3 + (rowCells row).length = m + (rowCells row).length + 3 := by omega
  rw [hmarked, hmargin] at hmark
  unfold grow
  calc
    Takes Band.device (away (-1) dec) ⟨1 :: b, 1 :: 0 :: (rowCells row ++ₛ blank), l, m + 1, c⟩
        ⟨0 :: b, 1 :: 0 :: (rowCells row ++ₛ blank), l, m + 1, c⟩ :=
      takes_away (.straight rfl) takes_dec_one (.straight rfl)
    Takes Band.device dec _ ⟨0 :: b, 0 :: 0 :: (rowCells row ++ₛ blank), l, m + 1, c⟩ :=
      takes_dec_one
    Takes Band.device (go 2) _ ⟨0 :: 0 :: 0 :: b, rowCells row ++ₛ blank, l, m + 3, c⟩ :=
      .straight rfl
    Takes Band.device markEnds _
        ⟨0 :: y :: 0 :: b', blank, l, m + (rowCells row).length + 3, c⟩ := hmark
    Takes Band.device (go (-2)) _
        ⟨0 :: b', y :: 0 :: blank, l, m + (rowCells row).length + 1, c⟩ := .straight rfl
    Takes Band.device shiftMarked _ ⟨0 :: b, 0 :: 0 :: (shiftedCells row ++ₛ blank), l, m + 1, c⟩ :=
      takes_shiftMarked row hmarked
    Takes Band.device (away (-1) inc) _
        ⟨1 :: b, 0 :: 0 :: 0 :: 0 :: 0 :: (rowCells row ++ₛ blank), l, m + 1, c⟩ := by
      rw [shiftedCells_append_blank]
      exact .straight rfl

/-! ### The carry -/

/-- Into the next digit `e` of the chain. -/
theorem takes_carryOn (e : UInt8) :
    Takes Band.device carryOn ⟨1 :: b, 1 :: 0 :: 1 :: 0 :: e :: a, l, m + 1, c⟩
      ⟨0 :: 0 :: 0 :: 1 :: b, 0 :: e :: a, l, m + 4, c⟩ := by
  unfold carryOn
  calc
    Takes Band.device dec ⟨1 :: b, 1 :: 0 :: 1 :: 0 :: e :: a, l, m + 1, c⟩ _ := takes_dec_one
    Takes Band.device (go 3) _ ⟨1 :: 0 :: 0 :: 1 :: b, 0 :: e :: a, l, m + 4, c⟩ := .straight rfl
    Takes Band.device findEnd _ ⟨1 :: 0 :: 0 :: 1 :: b, 0 :: e :: a, l, m + 4, c⟩ :=
      takes_findEnd_one
    Takes Band.device (loop grow) _ ⟨1 :: 0 :: 0 :: 1 :: b, 0 :: e :: a, l, m + 4, c⟩ :=
      takes_loop_leave rfl
    Takes Band.device (away (-1) dec) _ ⟨0 :: 0 :: 0 :: 1 :: b, 0 :: e :: a, l, m + 4, c⟩ :=
      takes_away (.straight rfl) takes_dec_one (.straight rfl)

/-- Past the end of the chain. -/
theorem takes_carryOn_grow (row : List Chain) :
    Takes Band.device carryOn
      ⟨1 :: b, 1 :: 0 :: 0 :: 0 :: 0 :: (rowCells row ++ₛ blank), l, m + 1, c⟩
      ⟨0 :: 0 :: 0 :: 1 :: b, 0 :: 0 :: 0 :: 0 :: 0 :: (rowCells row ++ₛ blank), l, m + 4, c⟩ := by
  unfold carryOn
  calc
    Takes Band.device dec
        ⟨1 :: b, 1 :: 0 :: 0 :: 0 :: 0 :: (rowCells row ++ₛ blank), l, m + 1, c⟩ _ := takes_dec_one
    Takes Band.device (go 3) _
        ⟨0 :: 0 :: 0 :: 1 :: b, 0 :: 0 :: (rowCells row ++ₛ blank), l, m + 4, c⟩ := .straight rfl
    Takes Band.device findEnd _
        ⟨1 :: 0 :: 0 :: 1 :: b, 1 :: 0 :: (rowCells row ++ₛ blank), l, m + 4, c⟩ :=
      takes_findEnd_zero
    Takes Band.device (loop grow) _
        ⟨1 :: 0 :: 0 :: 1 :: b, 0 :: 0 :: 0 :: 0 :: 0 :: (rowCells row ++ₛ blank), l, m + 4, c⟩ :=
      takes_loop_once rfl (takes_grow row) rfl
    Takes Band.device (away (-1) dec) _
        ⟨0 :: 0 :: 0 :: 1 :: b, 0 :: 0 :: 0 :: 0 :: 0 :: (rowCells row ++ₛ blank), l, m + 4, c⟩ :=
      takes_away (.straight rfl) takes_dec_one (.straight rfl)

theorem takes_carry_stop {d : UInt8} (h : d + 1 ≠ 0) :
    Takes Band.device (loop (bump ++ loop carryOn ++ raiseFlag) ++ go (-1))
      ⟨1 :: b, 1 :: d :: a, l, m + 1, c⟩ ⟨b, 1 :: 0 :: (d + 1) :: a, l, m, c⟩ := by
  have hbump := takes_bump d (a := a) (b := b) (l := l) (m := m) (c := c)
  rw [zeroTest, if_neg h] at hbump
  have hround :
      Takes Band.device (bump ++ loop carryOn ++ raiseFlag) ⟨1 :: b, 1 :: d :: a, l, m + 1, c⟩
      ⟨1 :: b, 0 :: (d + 1) :: a, l, m + 1, c⟩ :=
    (hbump.append (takes_loop_leave rfl)).append takes_raiseFlag_one
  exact (takes_loop_once rfl hround rfl).append (.straight rfl)

theorem takes_carry_round {d e : UInt8} {a' : Stream' UInt8} (h : d + 1 = 0)
    (hcarry : Takes Band.device carryOn ⟨1 :: b, 1 :: 0 :: a, l, m + 1, c⟩
      ⟨0 :: 0 :: 0 :: 1 :: b, 0 :: e :: a', l, m + 4, c⟩) :
    Takes Band.device (bump ++ loop carryOn ++ raiseFlag) ⟨1 :: b, 1 :: d :: a, l, m + 1, c⟩
      ⟨1 :: 0 :: 0 :: 1 :: b, 1 :: e :: a', l, m + 4, c⟩ := by
  have hbump := takes_bump d (a := a) (b := b) (l := l) (m := m) (c := c)
  rw [h, zeroTest, if_pos rfl] at hbump
  exact (hbump.append (takes_loop_once rfl hcarry rfl)).append takes_raiseFlag_zero

theorem takes_carry (d : UInt8) (ds : List UInt8) (row : List Chain) :
    ∃ (front : List UInt8) (e : UInt8) (back : List UInt8), carried (d :: ds) = front ++ e :: back ∧
      Takes Band.device (loop (bump ++ loop carryOn ++ raiseFlag) ++ go (-1))
        ⟨1 :: b, 1 :: d :: (chainCells ds ++ₛ (0 :: 0 :: 0 :: (rowCells row ++ₛ blank))), l, m + 1,
          c⟩
        ⟨(chainCells front).reverse ++ₛ b,
          chainCells (e :: back) ++ₛ (0 :: 0 :: 0 :: (rowCells row ++ₛ blank)), l,
          m + 3 * front.length, c⟩ := by
  induction ds generalizing d b m with
  | nil =>
    by_cases hd : d + 1 = 0
    · have hstop :=
        takes_carry_stop (d := 0) (by decide) (b := 0 :: 0 :: 1 :: b) (l := l) (m := m + 3)
        (a := 0 :: 0 :: 0 :: (rowCells row ++ₛ blank)) (c := c)
      have hround := takes_carry_round hd (takes_carryOn_grow row (b := b) (l := l) (m := m)
        (c := c))
      exact ⟨[0], 1, [], by simp [carried, hd], .again rfl hround hstop⟩
    · exact ⟨[], d + 1, [], by simp [carried, hd], takes_carry_stop hd⟩
  | cons e ds ih =>
    by_cases hd : d + 1 = 0
    · obtain ⟨front, e', back, hcarried, htail⟩ := ih e (b := 0 :: 0 :: 1 :: b) (m := m + 3)
      have hmargin : m + 3 + 3 * front.length = m + 3 * (front.length + 1) := by omega
      have hround := takes_carry_round hd (takes_carryOn e (b := b) (l := l) (m := m) (c := c)
        (a := chainCells ds ++ₛ (0 :: 0 :: 0 :: (rowCells row ++ₛ blank))))
      refine ⟨0 :: front, e', back, by rw [carried, if_pos hd, hcarried]; rfl, ?_⟩
      rw [reverse_chainCells_cons, List.length_cons, ← hmargin]
      exact .again rfl hround htail
    · exact ⟨[], d + 1, e :: ds, by simp [carried, hd], takes_carry_stop hd⟩

theorem takes_increment (d : UInt8) (ds : List UInt8) (row : List Chain) (y z : UInt8) :
    Takes Band.device increment
      ⟨z :: y :: 0 :: b, chainCells (d :: ds) ++ₛ (0 :: 0 :: 0 :: (rowCells row ++ₛ blank)), l,
        m + 3, c⟩
      ⟨z :: y :: 0 :: b,
        chainCells (carried (d :: ds)) ++ₛ (0 :: 0 :: 0 :: (rowCells row ++ₛ blank)),
        l, m + 3, c⟩ := by
  obtain ⟨front, e, back, hcarried, hloop⟩ :=
    takes_carry d ds row (b := z :: y :: 0 :: b) (l := l) (m := m + 3) (c := c)
  rw [hcarried, chainCells_append, Stream'.append_append_stream]
  unfold increment
  rw [Block.append_assoc _ _ (go (-1))]
  calc
    Takes Band.device (go 1 ++ inc)
        ⟨z :: y :: 0 :: b, chainCells (d :: ds) ++ₛ (0 :: 0 :: 0 :: (rowCells row ++ₛ blank)), l,
          m + 3, c⟩
        ⟨1 :: z :: y :: 0 :: b,
          1 :: d :: (chainCells ds ++ₛ (0 :: 0 :: 0 :: (rowCells row ++ₛ blank))), l, m + 3 + 1,
            c⟩ :=
      .straight rfl
    Takes Band.device (loop (bump ++ loop carryOn ++ raiseFlag) ++ go (-1)) _ _ := hloop
    Takes Band.device firstFlag _ _ := takes_firstFlag front y z

end Operation

end ByteTape
