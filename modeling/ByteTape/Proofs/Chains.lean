import ByteTape.Proofs.Growth

/-!
# The row of chains

Between operations a tape is a row of chains with the pointer on the first flag of one of them.
`Chains` is such a row as a device: it performs the commands on digits, where the tape performs
their codes on cells. `takes_command` says that the code of a command takes the band of a row to the
band of the row that the command leaves.
-/

namespace ByteTape

open Phrase
open Block (Takes)

@[ext]
structure Chains where
  /-- Chains on the left of the active one, nearest first. -/
  before : List Chain
  active : Chain
  after : List Chain
  /-- Index of the first cell of the leftmost chain. -/
  origin : Int
  console : Console

namespace Chains

def perform : Action → Chains → Chains
  | .inc, ⟨before, active, after, origin, console⟩ =>
    ⟨before, active.carry, after, origin, console⟩
  | .dec, ⟨before, active, after, origin, console⟩ =>
    ⟨before, if active.isZero then active else active.borrow, after, origin, console⟩
  | .left, ⟨[], active, after, origin, console⟩ =>
    ⟨[], .zero, active :: after, origin - 6, console⟩
  | .left, ⟨previous :: before, active, after, origin, console⟩ =>
    ⟨before, previous, active :: after, origin, console⟩
  | .right, ⟨before, active, [], origin, console⟩ =>
    ⟨active :: before, .zero, [], origin, console⟩
  | .right, ⟨before, active, next :: after, origin, console⟩ =>
    ⟨active :: before, next, after, origin, console⟩
  | .read, ⟨before, active, after, origin, console⟩ =>
    ⟨before, active.load console.read.1, after, origin, console.read.2⟩
  | .write, ⟨before, active, after, origin, console⟩ =>
    ⟨before, active, after, origin, console.write active.first⟩

def device : Device Chains := ⟨perform, fun s => !s.active.isZero⟩

/-- The chains from left to right. -/
def row (s : Chains) : List Chain := s.before.reverse ++ s.active :: s.after

def start (input : List UInt8) : Chains := ⟨[], .zero, [], 3, { input }⟩

/-- A block and its row of chains after `count` steps. -/
def stage (block : Block) (input : List UInt8) (count : Nat) : Block × Chains :=
  Block.advance device count (block, .start input)

open scoped Stream'

/-- The cells behind chains given nearest first. -/
def behind (before : List Chain) : Stream' UInt8 := (rowCells before.reverse).reverse ++ₛ blank

/-- The cells from the first flag of a chain on. -/
def ahead (chain : Chain) (after : List Chain) : Stream' UInt8 :=
  chainCells chain.digits ++ₛ (0 :: 0 :: 0 :: (rowCells after ++ₛ blank))

/-- The cells of a row. Three cells on its left have been visited, and none further left. -/
def band (s : Chains) : Band where
  behind := behind s.before
  ahead := ahead s.active s.after
  lowest := s.origin - 3
  margin := (rowCells s.before.reverse).length + 3
  console := s.console

theorem behind_cons (chain : Chain) (before : List Chain) :
    behind (chain :: before) =
      0 :: 0 :: 0 :: ((chainCells chain.digits).reverse ++ₛ behind before) := by
  simp [behind, Stream'.append_append_stream, Stream'.cons_append_stream]

theorem exists_behind (before : List Chain) :
    ∃ b : Stream' UInt8, behind before = 0 :: 0 :: 0 :: b := by
  cases before with
  | nil => exact ⟨blank, three_blank_eq.symm⟩
  | cons chain before => exact ⟨_, behind_cons chain before⟩

theorem length_rowCells_reverse_cons (chain : Chain) (before : List Chain) :
    (rowCells (chain :: before).reverse).length =
      (rowCells before.reverse).length + 3 * chain.digits.length + 3 := by
  simp only [List.reverse_cons, rowCells_append, rowCells_cons, rowCells_nil, List.length_append,
    length_chainCells, List.length_cons, List.length_nil]
  omega

theorem ahead_cons (chain next : Chain) (after : List Chain) :
    ahead chain (next :: after) =
      chainCells chain.digits ++ₛ (0 :: 0 :: 0 :: ahead next after) := by
  simp only [ahead, rowCells_cons, Stream'.append_append_stream, Stream'.cons_append_stream,
    Stream'.nil_append_stream]

end Chains

namespace Operation

open scoped Stream'
open Chains (behind ahead)

/-- The code of the command that performs an action, as a block. -/
def actionBlock : Action → Block
  | .inc => increment
  | .dec => nonzeroBlock ++ borrow
  | .left => navigateLeft
  | .right => navigateRight
  | .read => input
  | .write => output

/-- The cells of a row, with `x` in the second cell of the active chain. -/
def scratchBand (s : Chains) (x : UInt8) : Band where
  behind := behind s.before
  ahead := 1 :: x :: s.active.first ::
    (chainCells s.active.rest ++ₛ (0 :: 0 :: 0 :: (rowCells s.after ++ₛ blank)))
  lowest := s.origin - 3
  margin := (rowCells s.before.reverse).length + 3
  console := s.console

/-- The cells of a row after the nonzero test. -/
def testedBand (s : Chains) : Band := scratchBand s (if s.active.isZero then 0 else 1)

theorem takes_nonzeroTest (s : Chains) : Takes Band.device nonzeroBlock s.band (testedBand s) := by
  obtain ⟨b, hb⟩ := Chains.exists_behind s.before
  unfold Chains.band testedBand scratchBand
  rw [hb]
  exact takes_nonzeroBlock s.active.first s.active.rest 0 0

theorem takes_borrow (s : Chains) :
    Takes Band.device borrow (testedBand s) (s.perform .dec).band := by
  obtain ⟨before, ⟨d, ds⟩, after, origin, console⟩ := s
  obtain ⟨b, hb⟩ := Chains.exists_behind before
  unfold testedBand scratchBand Chains.band Chains.perform
  simp only [hb]
  by_cases hzero : Chain.isZero ⟨d, ds⟩ = true
  · rw [if_pos hzero, if_pos hzero]
    exact takes_borrow_zero d 0 0
  · rw [if_neg hzero, if_neg hzero, ahead, Chain.digits_borrow]
    exact takes_borrow_nonzero d ds 0 0 hzero

theorem takes_command_left (s : Chains) :
    Takes Band.device navigateLeft s.band (s.perform .left).band := by
  obtain ⟨before, active, after, origin, console⟩ := s
  cases before with
  | nil =>
    have hlowest : origin - 3 - 6 = origin - 6 - 3 := by omega
    have hnew := takes_navigateLeft_new (a := ahead active after) (l := origin - 3) (c := console)
    rw [hlowest] at hnew
    unfold Chains.band Chains.perform
    simp only
    rw [Chains.ahead_cons]
    exact hnew
  | cons previous before =>
    obtain ⟨b, hb⟩ := Chains.exists_behind before
    obtain ⟨ds, e, hdigits⟩ : ∃ ds e, previous.digits = ds ++ [e] :=
      ⟨_, _, (List.dropLast_concat_getLast (List.cons_ne_nil _ _)).symm⟩
    have hmargin : (rowCells (previous :: before).reverse).length + 3 =
        (rowCells before.reverse).length + 3 + 3 * ds.length + 6 := by
      rw [Chains.length_rowCells_reverse_cons, hdigits, List.length_append, List.length_singleton]
      omega
    unfold Chains.band Chains.perform
    simp only
    rw [Chains.behind_cons, hb, hmargin, Chains.ahead_cons, hdigits]
    exact takes_navigateLeft ds e 0 0

theorem takes_command_right (s : Chains) :
    Takes Band.device navigateRight s.band (s.perform .right).band := by
  obtain ⟨before, active, after, origin, console⟩ := s
  have hmargin : (rowCells (active :: before).reverse).length + 3 =
      (rowCells before.reverse).length + 3 + 3 * active.digits.length + 3 := by
    rw [Chains.length_rowCells_reverse_cons]
    omega
  unfold Chains.band
  cases after with
  | nil =>
    have hmove := takes_navigateRight active.digits 0 (a := 0 :: 0 :: 0 :: 0 :: 0 :: blank)
      (b := behind before) (l := origin - 3) (m := (rowCells before.reverse).length + 3)
      (c := console)
    have hblank : (0 :: 0 :: 0 :: 0 :: 0 :: 0 :: blank : Stream' UInt8) = blank := by
      rw [three_blank_eq, three_blank_eq]
    rw [hblank, ← Chains.behind_cons, ← hmargin] at hmove
    exact hmove
  | cons next after =>
    unfold Chains.perform
    simp only
    rw [Chains.behind_cons, hmargin, Chains.ahead_cons]
    exact takes_navigateRight active.digits 1

theorem takes_command (action : Action) (s : Chains) :
    Takes Band.device (actionBlock action) s.band (s.perform action).band := by
  cases action with
  | inc =>
    obtain ⟨b, hb⟩ := Chains.exists_behind s.before
    unfold Chains.band Chains.perform
    simp only [hb, ahead, Chain.digits_carry]
    exact takes_increment s.active.first s.active.rest s.after 0 0
  | dec => exact (takes_nonzeroTest s).append (takes_borrow s)
  | left => exact takes_command_left s
  | right => exact takes_command_right s
  | read =>
    obtain ⟨b, hb⟩ := Chains.exists_behind s.before
    unfold Chains.band Chains.perform
    simp only [hb]
    exact takes_input s.active.first s.active.rest 0 0
  | write => exact takes_output s.active.first s.active.rest

end Operation

end ByteTape
