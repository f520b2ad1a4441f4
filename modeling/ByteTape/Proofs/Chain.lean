import Mathlib.Data.List.Induction
import ByteTape.Proofs.Digit
import ByteTape.Proofs.Digits

/-!
# Operations along a chain

Operations go over the digits of a chain from left to right or back, and do the same work at each.
`takes_scanRight` and `takes_scanLeft` say what comes of it; the loops of the operations are cases
of them, except for the carry and the borrow, which stop on their way.
-/

namespace ByteTape

open scoped Stream'
open Phrase
open Block (Takes)

/-- The cells of digits in a row. -/
def chainCells (digits : List UInt8) : List UInt8 := digits.flatMap fun digit => [1, 0, digit]

@[simp]
theorem chainCells_nil : chainCells [] = [] := rfl

@[simp]
theorem chainCells_cons (d : UInt8) (ds : List UInt8) :
    chainCells (d :: ds) = 1 :: 0 :: d :: chainCells ds := rfl

@[simp]
theorem chainCells_append (ds es : List UInt8) :
    chainCells (ds ++ es) = chainCells ds ++ chainCells es := List.flatMap_append

@[simp]
theorem length_chainCells (ds : List UInt8) : (chainCells ds).length = 3 * ds.length := by
  induction ds with
  | nil => rfl
  | cons d ds ih =>
    simp only [chainCells_cons, List.length_cons, ih]
    omega

theorem reverse_chainCells_cons (d : UInt8) (ds : List UInt8) (b : Stream' UInt8) :
    (chainCells (d :: ds)).reverse ++ₛ b = (chainCells ds).reverse ++ₛ (d :: 0 :: 1 :: b) := by
  simp [Stream'.cons_append_stream]

theorem reverse_chainCells_concat (ds : List UInt8) (d : UInt8) (b : Stream' UInt8) :
    (chainCells (ds ++ [d])).reverse ++ₛ b = d :: 0 :: 1 :: ((chainCells ds).reverse ++ₛ b) := by
  simp [Stream'.cons_append_stream]

variable {a b : Stream' UInt8} {l : Int} {m : Nat} {c : Console}

namespace Operation

/-! ### Scans -/

theorem takes_scanRight {work : Block} {f : UInt8 → UInt8}
    (hwork : ∀ (d : UInt8) (a b : Stream' UInt8) (m : Nat),
      Takes Band.device work ⟨b, 1 :: 0 :: d :: a, l, m, c⟩ ⟨b, 1 :: 0 :: f d :: a, l, m, c⟩)
    (ds : List UInt8) :
    Takes Band.device (loop (work ++ go 3)) ⟨b, chainCells ds ++ₛ (0 :: a), l, m, c⟩
      ⟨(chainCells (ds.map f)).reverse ++ₛ b, 0 :: a, l, m + 3 * ds.length, c⟩ := by
  induction ds generalizing b m with
  | nil => exact takes_loop_leave rfl
  | cons d ds ih =>
    have hmargin : m + 3 * (d :: ds).length = m + 3 + 3 * ds.length := by
      simp only [List.length_cons]
      omega
    have hstep :
        Takes Band.device (go 3) ⟨b, 1 :: 0 :: f d :: (chainCells ds ++ₛ (0 :: a)), l, m, c⟩
        ⟨f d :: 0 :: 1 :: b, chainCells ds ++ₛ (0 :: a), l, m + 3, c⟩ := .straight rfl
    rw [hmargin, List.map_cons, reverse_chainCells_cons]
    exact takes_loop_again rfl ((hwork d _ b m).append hstep) ih

/-- The digits from the last to the first, each after a step to the left. What is ahead once the
digits of `done` are worked off is `after done`. -/
theorem takes_scanLeft {work : Block} (after : List UInt8 → Stream' UInt8)
    (hwork : ∀ (d : UInt8) (done : List UInt8) (b : Stream' UInt8) (m : Nat),
      Takes Band.device work ⟨b, 1 :: 0 :: d :: after done, l, m, c⟩
        ⟨b, after (d :: done), l, m, c⟩)
    (ds done : List UInt8) (y z : UInt8) :
    Takes Band.device (go (-3) ++ loop (work ++ go (-3)))
      ⟨(chainCells ds).reverse ++ₛ (z :: y :: 0 :: b), after done, l, m + 3 + 3 * ds.length, c⟩
      ⟨b, 0 :: y :: z :: after (ds ++ done), l, m, c⟩ := by
  induction ds using List.reverseRecOn generalizing done with
  | nil =>
    have hstep : Takes Band.device (go (-3)) ⟨z :: y :: 0 :: b, after done, l, m + 3, c⟩
        ⟨b, 0 :: y :: z :: after done, l, m, c⟩ := .straight rfl
    exact hstep.append (takes_loop_leave rfl)
  | append_singleton ds d ih =>
    have hmargin : m + 3 + 3 * (ds ++ [d]).length = m + 3 + 3 * ds.length + 3 := by
      simp only [List.length_append, List.length_singleton]
      omega
    have hstep : Takes Band.device (go (-3))
        ⟨d :: 0 :: 1 :: ((chainCells ds).reverse ++ₛ (z :: y :: 0 :: b)), after done, l,
          m + 3 + 3 * ds.length + 3, c⟩
        ⟨(chainCells ds).reverse ++ₛ (z :: y :: 0 :: b), 1 :: 0 :: d :: after done, l,
          m + 3 + 3 * ds.length, c⟩ := .straight rfl
    have hrest := ih (d :: done)
    rw [hmargin, reverse_chainCells_concat, List.append_assoc]
    exact hstep.append (takes_loop_turn rfl (hwork d done _ _) hrest)

theorem takes_chainEnd (ds : List UInt8) :
    Takes Band.device chainEnd ⟨b, chainCells ds ++ₛ (0 :: a), l, m, c⟩
      ⟨(chainCells ds).reverse ++ₛ b, 0 :: a, l, m + 3 * ds.length, c⟩ := by
  have hscan :=
    takes_scanRight (f := id) (fun _ _ _ _ => Takes.refl _) ds (a := a) (b := b) (l := l)
    (m := m) (c := c)
  rwa [List.map_id] at hscan

theorem takes_back (ds : List UInt8) (y z : UInt8) :
    Takes Band.device (go (-3) ++ loop (go (-3)))
      ⟨(chainCells ds).reverse ++ₛ (z :: y :: 0 :: b), a, l, m + 3 + 3 * ds.length, c⟩
      ⟨b, 0 :: y :: z :: (chainCells ds ++ₛ a), l, m, c⟩ := by
  have hscan := takes_scanLeft (fun done => chainCells done ++ₛ a) (fun _ _ _ _ => Takes.refl _)
    ds [] y z (b := b) (l := l) (m := m) (c := c)
  rwa [List.append_nil] at hscan

/-- From the spacing behind a chain. -/
theorem takes_back_firstFlag (ds : List UInt8) (y z : UInt8) :
    Takes Band.device (go (-3) ++ firstFlag)
      ⟨(chainCells ds).reverse ++ₛ (z :: y :: 0 :: b), a, l, m + 3 + 3 * ds.length, c⟩
      ⟨z :: y :: 0 :: b, chainCells ds ++ₛ a, l, m + 3, c⟩ := by
  have hstep : Takes Band.device (go 3) ⟨b, 0 :: y :: z :: (chainCells ds ++ₛ a), l, m, c⟩
      ⟨z :: y :: 0 :: b, chainCells ds ++ₛ a, l, m + 3, c⟩ := .straight rfl
  rw [firstFlag, ← Block.append_assoc]
  exact (takes_back ds y z).append hstep

/-- From the flag of a digit behind the digits `ds` of its chain. -/
theorem takes_firstFlag (ds : List UInt8) (y z : UInt8) :
    Takes Band.device firstFlag
      ⟨(chainCells ds).reverse ++ₛ (z :: y :: 0 :: b), 1 :: a, l, m + 3 + 3 * ds.length, c⟩
      ⟨z :: y :: 0 :: b, chainCells ds ++ₛ (1 :: a), l, m + 3, c⟩ := by
  have hloop : Takes Band.device (loop (go (-3)))
      ⟨(chainCells ds).reverse ++ₛ (z :: y :: 0 :: b), 1 :: a, l, m + 3 + 3 * ds.length, c⟩
      ⟨b, 0 :: y :: z :: (chainCells ds ++ₛ (1 :: a)), l, m, c⟩ :=
    takes_loop_enter rfl (takes_back ds y z)
  exact hloop.append (.straight rfl)

/-- From the triplet before a chain. -/
theorem takes_firstFlag_zero (y z : UInt8) :
    Takes Band.device firstFlag ⟨b, 0 :: y :: z :: a, l, m, c⟩ ⟨z :: y :: 0 :: b, a, l, m + 3, c⟩ :=
  Takes.append (takes_loop_leave rfl) (.straight rfl)

/-! ### The nonzero test -/

/-- The cell that says whether any digit is not 0. -/
def anyNonzero (ds : List UInt8) : UInt8 := if ds.all (· == 0) then 0 else 1

/-- The cells from the first of the digits `ds` on, once the test has worked them off. -/
def tested (a : Stream' UInt8) (ds : List UInt8) : Stream' UInt8 :=
  match ds with
  | [] => 0 :: 0 :: a
  | List.cons d ds => 1 :: anyNonzero (d :: ds) :: d :: (chainCells ds ++ₛ (0 :: 0 :: a))

theorem anyNonzero_cons (d : UInt8) (ds : List UInt8) :
    anyNonzero (d :: ds) = if d = 0 ∧ anyNonzero ds = 0 then 0 else 1 := by
  by_cases hd : d = 0 <;> by_cases hds : ds.all (· == 0) = true <;> simp [anyNonzero, hd, hds]

theorem sign_anyNonzero (ds : List UInt8) : sign (anyNonzero ds) = anyNonzero ds := by
  unfold anyNonzero
  split <;> rfl

theorem takes_testDigit_tested (d : UInt8) (ds : List UInt8) :
    Takes Band.device testDigit ⟨b, 1 :: 0 :: d :: tested a ds, l, m, c⟩
      ⟨b, tested a (d :: ds), l, m, c⟩ := by
  cases ds with
  | nil =>
    rw [tested, tested, anyNonzero_cons]
    exact takes_testDigit d 0 0
  | cons e ds =>
    have htest := takes_testDigit d 1 (anyNonzero (e :: ds)) (b := b) (l := l) (m := m) (c := c)
      (a := e :: (chainCells ds ++ₛ (0 :: 0 :: a)))
    rw [sign_anyNonzero, ← anyNonzero_cons] at htest
    exact htest

theorem takes_nonzeroBlock (d : UInt8) (ds : List UInt8) (y z : UInt8) :
    Takes Band.device nonzeroBlock
      ⟨z :: y :: 0 :: b, chainCells (d :: ds) ++ₛ (0 :: 0 :: a), l, m + 3, c⟩
      ⟨z :: y :: 0 :: b, 1 :: anyNonzero (d :: ds) :: d :: (chainCells ds ++ₛ (0 :: 0 :: a)), l,
        m + 3, c⟩ := by
  have hscan : Takes Band.device (go (-3) ++ loop (testDigit ++ go (-3)))
      ⟨(chainCells (d :: ds)).reverse ++ₛ (z :: y :: 0 :: b), 0 :: 0 :: a, l,
        m + 3 + 3 * (d :: ds).length, c⟩
      ⟨b, 0 :: y :: z :: tested a (d :: ds), l, m, c⟩ := by
    have h :=
      takes_scanLeft (tested a) (fun d done b m => takes_testDigit_tested d done) (d :: ds) []
      y z (b := b) (l := l) (m := m) (c := c)
    rwa [List.append_nil] at h
  unfold nonzeroBlock
  rw [Block.append_assoc chainEnd]
  calc
    Takes Band.device chainEnd
        ⟨z :: y :: 0 :: b, chainCells (d :: ds) ++ₛ (0 :: 0 :: a), l, m + 3, c⟩ _ :=
      takes_chainEnd (d :: ds)
    Takes Band.device (go (-3) ++ loop (testDigit ++ go (-3))) _
        ⟨b, 0 :: y :: z :: tested a (d :: ds), l, m, c⟩ := hscan
    Takes Band.device (go 3) _ ⟨z :: y :: 0 :: b, tested a (d :: ds), l, m + 3, c⟩ := .straight rfl

/-! ### The borrow -/

theorem takes_borrow_loop (d : UInt8) (ds : List UInt8) (h : ¬(d :: ds).all (· == 0) = true) :
    ∃ (front : List UInt8) (e : UInt8) (back : List UInt8),
      borrowed (d :: ds) = front ++ e :: back ∧
      Takes Band.device (loop (borrowDigit ++ go 3) ++ go (-4))
        ⟨1 :: b, 1 :: d :: (chainCells ds ++ₛ (0 :: 0 :: a)), l, m + 1, c⟩
        ⟨(chainCells front).reverse ++ₛ b, chainCells (e :: back) ++ₛ (0 :: 0 :: a), l,
          m + 3 * front.length, c⟩ := by
  induction ds generalizing d b m with
  | nil =>
    have hd : d ≠ 0 := by simpa using h
    refine ⟨[], d - 1, [], by simp [borrowed, hd], ?_⟩
    have hround := takes_borrowDigit d 0 (a := a) (b := b) (l := l) (m := m) (c := c)
    rw [zeroTest, if_neg hd] at hround
    have hstep : Takes Band.device (go 3) ⟨1 :: b, 0 :: (d - 1) :: 0 :: 0 :: a, l, m + 1, c⟩
        ⟨0 :: (d - 1) :: 0 :: 1 :: b, 0 :: a, l, m + 4, c⟩ := .straight rfl
    exact (takes_loop_once rfl (hround.append hstep) rfl).append (.straight rfl)
  | cons e ds ih =>
    -- A digit 0 wraps and leaves the borrow to the next one; any other digit takes it.
    by_cases hd : d = 0
    · subst hd
      have hds : ¬(e :: ds).all (· == 0) = true := by simpa using h
      obtain ⟨front, e', back, hborrowed, htail⟩ :=
        ih e hds (b := 255 :: 0 :: 1 :: b) (m := m + 3)
      have hmargin : m + 3 + 3 * front.length = m + 3 * (front.length + 1) := by omega
      have hround : Takes Band.device borrowDigit
          ⟨1 :: b, 1 :: 0 :: 1 :: 0 :: e :: (chainCells ds ++ₛ (0 :: 0 :: a)), l, m + 1, c⟩
          ⟨1 :: b, 0 :: 255 :: 1 :: 1 :: e :: (chainCells ds ++ₛ (0 :: 0 :: a)), l, m + 1, c⟩ :=
        takes_borrowDigit 0 1
      have hstep : Takes Band.device (go 3)
          ⟨1 :: b, 0 :: 255 :: 1 :: 1 :: e :: (chainCells ds ++ₛ (0 :: 0 :: a)), l, m + 1, c⟩
          ⟨1 :: 255 :: 0 :: 1 :: b, 1 :: e :: (chainCells ds ++ₛ (0 :: 0 :: a)), l, m + 3 + 1, c⟩ :=
        .straight rfl
      refine ⟨255 :: front, e', back, by rw [borrowed, if_pos rfl, hborrowed]; rfl, ?_⟩
      rw [reverse_chainCells_cons, List.length_cons, ← hmargin]
      exact .again rfl (hround.append hstep) htail
    · refine ⟨[], d - 1, e :: ds, by simp [borrowed, hd], ?_⟩
      have hround := takes_borrowDigit d 1 (a := e :: (chainCells ds ++ₛ (0 :: 0 :: a))) (b := b)
        (l := l) (m := m) (c := c)
      rw [zeroTest, if_neg hd] at hround
      have hstep : Takes Band.device (go 3)
          ⟨1 :: b, 0 :: (d - 1) :: 1 :: 0 :: e :: (chainCells ds ++ₛ (0 :: 0 :: a)), l, m + 1, c⟩
          ⟨1 :: (d - 1) :: 0 :: 1 :: b, 0 :: e :: (chainCells ds ++ₛ (0 :: 0 :: a)), l, m + 4, c⟩ :=
        .straight rfl
      exact (takes_loop_once rfl (hround.append hstep) rfl).append (.straight rfl)

theorem takes_borrow_nonzero (d : UInt8) (ds : List UInt8) (y z : UInt8)
    (h : ¬(d :: ds).all (· == 0) = true) :
    Takes Band.device borrow
      ⟨z :: y :: 0 :: b, 1 :: 1 :: d :: (chainCells ds ++ₛ (0 :: 0 :: a)), l, m + 3, c⟩
      ⟨z :: y :: 0 :: b, chainCells (borrowed (d :: ds)) ++ₛ (0 :: 0 :: a), l, m + 3, c⟩ := by
  obtain ⟨front, e, back, hborrowed, hloop⟩ :=
    takes_borrow_loop d ds h (a := a) (b := z :: y :: 0 :: b) (l := l) (m := m + 3) (c := c)
  rw [hborrowed, chainCells_append, Stream'.append_append_stream]
  unfold borrow
  rw [Block.append_assoc (go 1)]
  calc
    Takes Band.device (go 1)
        ⟨z :: y :: 0 :: b, 1 :: 1 :: d :: (chainCells ds ++ₛ (0 :: 0 :: a)), l, m + 3, c⟩
        ⟨1 :: z :: y :: 0 :: b, 1 :: d :: (chainCells ds ++ₛ (0 :: 0 :: a)), l, m + 3 + 1, c⟩ :=
      .straight rfl
    Takes Band.device (loop (borrowDigit ++ go 3) ++ go (-4)) _ _ := hloop
    Takes Band.device firstFlag _ _ := takes_firstFlag front y z

theorem takes_borrow_zero (d : UInt8) (y z : UInt8) :
    Takes Band.device borrow ⟨z :: y :: 0 :: b, 1 :: 0 :: d :: a, l, m + 3, c⟩
      ⟨z :: y :: 0 :: b, 1 :: 0 :: d :: a, l, m + 3, c⟩ := by
  unfold borrow
  calc
    Takes Band.device (go 1) ⟨z :: y :: 0 :: b, 1 :: 0 :: d :: a, l, m + 3, c⟩
        ⟨1 :: z :: y :: 0 :: b, 0 :: d :: a, l, m + 4, c⟩ := .straight rfl
    Takes Band.device (loop (borrowDigit ++ go 3)) _ _ := takes_loop_leave rfl
    Takes Band.device (go (-4)) _ ⟨b, 0 :: y :: z :: 1 :: 0 :: d :: a, l, m, c⟩ := .straight rfl
    Takes Band.device firstFlag _ _ := takes_firstFlag_zero y z

/-! ### Input and navigation -/

theorem takes_input (d : UInt8) (ds : List UInt8) (y z : UInt8) :
    Takes Band.device input ⟨z :: y :: 0 :: b, chainCells (d :: ds) ++ₛ (0 :: a), l, m + 3, c⟩
      ⟨z :: y :: 0 :: b, chainCells (c.read.1 :: ds.map fun _ => 0) ++ₛ (0 :: a), l, m + 3,
        c.read.2⟩ := by
  have hscan : Takes Band.device (loop (away 2 clear ++ go 3))
      ⟨z :: y :: 0 :: b, chainCells (d :: ds) ++ₛ (0 :: a), l, m + 3, c⟩ _ :=
    takes_scanRight (f := fun _ => 0)
      (fun d a b m => takes_away (.straight rfl) (takes_clear d) (.straight rfl)) (d :: ds)
  have hback := takes_back_firstFlag ((d :: ds).map fun _ => 0) y z (a := 0 :: a) (b := b) (l := l)
    (m := m) (c := c)
  rw [List.length_map] at hback
  unfold input
  rw [Block.append_assoc (loop _)]
  calc
    Takes Band.device (loop (away 2 clear ++ go 3))
        ⟨z :: y :: 0 :: b, chainCells (d :: ds) ++ₛ (0 :: a), l, m + 3, c⟩ _ := hscan
    Takes Band.device (go (-3) ++ firstFlag) _ _ := hback
    Takes Band.device (away 2 read) _ _ := .straight rfl

theorem takes_output (d : UInt8) (ds : List UInt8) :
    Takes Band.device output ⟨b, chainCells (d :: ds) ++ₛ a, l, m, c⟩
      ⟨b, chainCells (d :: ds) ++ₛ a, l, m, c.write d⟩ := .straight rfl

/-- The next chain is there if `f` is 1, and it is made if `f` is 0. -/
theorem takes_navigateRight (ds : List UInt8) (f : UInt8) :
    Takes Band.device navigateRight ⟨b, chainCells ds ++ₛ (0 :: 0 :: 0 :: f :: a), l, m, c⟩
      ⟨0 :: 0 :: 0 :: ((chainCells ds).reverse ++ₛ b), 1 :: a, l, m + 3 * ds.length + 3, c⟩ := by
  unfold navigateRight
  calc
    Takes Band.device chainEnd ⟨b, chainCells ds ++ₛ (0 :: 0 :: 0 :: f :: a), l, m, c⟩ _ :=
      takes_chainEnd ds
    Takes Band.device (go 3) _
        ⟨0 :: 0 :: 0 :: ((chainCells ds).reverse ++ₛ b), f :: a, l, m + 3 * ds.length + 3, c⟩ :=
      .straight rfl
    Takes Band.device clear _ _ := takes_clear f
    Takes Band.device inc _ _ := .straight rfl

/-- From a chain to the one on its left, which has a last digit `e` and digits `ds` before it. -/
theorem takes_navigateLeft (ds : List UInt8) (e y z : UInt8) :
    Takes Band.device navigateLeft
      ⟨0 :: 0 :: 0 :: ((chainCells (ds ++ [e])).reverse ++ₛ (z :: y :: 0 :: b)), a, l,
        m + 3 + 3 * ds.length + 6, c⟩
      ⟨z :: y :: 0 :: b, chainCells (ds ++ [e]) ++ₛ (0 :: 0 :: 0 :: a), l, m + 3, c⟩ := by
  have hsplit : navigateLeft = go (-6) ++ (go (-3) ++ firstFlag) ++ (clear ++ inc) := rfl
  have hset : Takes Band.device (clear ++ inc)
      ⟨z :: y :: 0 :: b, chainCells (ds ++ [e]) ++ₛ (0 :: 0 :: 0 :: a), l, m + 3, c⟩
      ⟨z :: y :: 0 :: b, chainCells (ds ++ [e]) ++ₛ (0 :: 0 :: 0 :: a), l, m + 3, c⟩ := by
    cases ds with
    | nil => exact (takes_clear 1).append (.straight rfl)
    | cons d ds => exact (takes_clear 1).append (.straight rfl)
  have hback := takes_back_firstFlag ds y z (a := chainCells [e] ++ₛ (0 :: 0 :: 0 :: a)) (b := b)
    (l := l) (m := m) (c := c)
  rw [← Stream'.append_append_stream, ← chainCells_append] at hback
  rw [hsplit, reverse_chainCells_concat]
  calc
    Takes Band.device (go (-6))
        ⟨0 :: 0 :: 0 :: e :: 0 :: 1 :: ((chainCells ds).reverse ++ₛ (z :: y :: 0 :: b)), a, l,
          m + 3 + 3 * ds.length + 6, c⟩
        ⟨(chainCells ds).reverse ++ₛ (z :: y :: 0 :: b), chainCells [e] ++ₛ (0 :: 0 :: 0 :: a), l,
          m + 3 + 3 * ds.length, c⟩ := .straight rfl
    Takes Band.device (go (-3) ++ firstFlag) _ _ := hback
    Takes Band.device (clear ++ inc) _ _ := hset

/-- With nothing on its left, a chain gets a neighbour there. -/
theorem takes_navigateLeft_new :
    Takes Band.device navigateLeft ⟨Stream'.const 0, a, l, 3, c⟩
      ⟨Stream'.const 0, chainCells [0] ++ₛ (0 :: 0 :: 0 :: a), l - 6, 3, c⟩ := by
  have hlowest : l - 6 = l - 1 - 1 - 1 - 1 - 1 - 1 := by omega
  have hconst : (0 :: 0 :: 0 :: Stream'.const 0 : Stream' UInt8) = Stream'.const 0 := by
    rw [← Stream'.const_eq, ← Stream'.const_eq, ← Stream'.const_eq]
  rw [hlowest]
  unfold navigateLeft
  calc
    Takes Band.device (go (-9)) ⟨Stream'.const 0, a, l, 3, c⟩
        ⟨Stream'.const 0, 0 :: 0 :: 0 :: 0 :: 0 :: 0 :: 0 :: 0 :: 0 :: a, l - 1 - 1 - 1 - 1 - 1 - 1,
          0, c⟩ := .straight rfl
    Takes Band.device firstFlag _
        ⟨Stream'.const 0, 0 :: 0 :: 0 :: 0 :: 0 :: 0 :: a, l - 1 - 1 - 1 - 1 - 1 - 1, 3, c⟩ := by
      have h := takes_firstFlag_zero 0 0 (a := 0 :: 0 :: 0 :: 0 :: 0 :: 0 :: a)
        (b := Stream'.const 0) (l := l - 1 - 1 - 1 - 1 - 1 - 1) (m := 0) (c := c)
      rwa [hconst] at h
    Takes Band.device clear _ _ := takes_clear 0
    Takes Band.device inc _ _ := .straight rfl

end Operation

end ByteTape
