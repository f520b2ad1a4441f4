import Mathlib.Data.Set.Function
import ByteTape.Proofs.Lockstep

/-!
# Displaced tapes

Actions know neither where on a tape they are nor what stands on cells they do not visit. So stores
whose tapes hold the same cells at different indices go on to do so, if only the moves of the
pointer agree with the displacement, and it is enough if the cells are the same in a region that the
pointer does not leave. If all indices differ by one distance, then so do the marks.
-/

namespace ByteTape

namespace Store

/-- The cells of `region` on the tape of `s` are on that of `t` at the indices that `place` gives
them. -/
structure Carried (place : Int → Int) (region : Set Int) (s t : Store) : Prop where
  pointer : t.tape.pointer = place s.tape.pointer
  get : ∀ index ∈ region, t.tape.get (place index) = s.tape.get index
  console : t.console = s.console

/-- The tape of `t` is that of `s` moved by `shift`, as far as the cells of `region` go. -/
structure Displaced (shift : Int) (region : Set Int) (s t : Store) : Prop
    extends Carried (· + shift) region s t where
  lowest : t.lowest = s.lowest + shift

variable {place : Int → Int} {shift : Int} {region : Set Int} {s t : Store}

theorem Carried.current (h : s.Carried place region t) (hmem : s.tape.pointer ∈ region) :
    t.tape.current = s.tape.current := by
  rw [Tape.current, Tape.current, h.pointer]
  exact h.get _ hmem

theorem Carried.nonzero (h : s.Carried place region t) (hmem : s.tape.pointer ∈ region) :
    s.nonzero = t.nonzero := by
  rw [Store.nonzero, Store.nonzero, h.current hmem]

theorem Carried.setCurrent (h : s.Carried place region t) (hinj : Set.InjOn place region)
    (hmem : s.tape.pointer ∈ region) (value : UInt8) {console console' : Console} {low low' : Int}
    (hconsole : console' = console) :
    Carried place region ⟨s.tape.setCurrent value, console, low⟩
      ⟨t.tape.setCurrent value, console', low'⟩ where
  pointer := by
    simp only [Tape.setCurrent, Tape.pointer_set]
    exact h.pointer
  get index hindex := by
    have hplace : place index = t.tape.pointer ↔ index = s.tape.pointer := by
      rw [h.pointer]
      exact hinj.eq_iff hindex hmem
    simp only [Tape.setCurrent, Tape.get_set, hplace, h.get index hindex]
  console := hconsole

theorem Carried.moveTo (h : s.Carried place region t) {index index' low low' : Int}
    (hindex : index' = place index) :
    Carried place region ⟨s.tape.moveTo index, s.console, low⟩
      ⟨t.tape.moveTo index', t.console, low'⟩ where
  pointer := hindex
  get other hmem := by
    simp only [Tape.get_moveTo]
    exact h.get other hmem
  console := h.console

section Spaces

variable [IndexSpace]

theorem Carried.perform (hinj : Set.InjOn place region)
    (hwrap : ∀ index distance,
      IndexSpace.wrap (place index + distance) = place (IndexSpace.wrap (index + distance)))
    (h : s.Carried place region t) (hmem : s.tape.pointer ∈ region) (action : Action) :
    (s.perform action).Carried place region (t.perform action) := by
  have hcurrent := h.current hmem
  have hread : t.console.read = s.console.read := by rw [h.console]
  have hmoved (distance : Int) : IndexSpace.wrap (t.tape.pointer + distance) =
      place (IndexSpace.wrap (s.tape.pointer + distance)) := by
    rw [h.pointer, hwrap]
  cases action with
  | inc =>
    change Carried place region ⟨s.tape.setCurrent (s.tape.current + 1), _, _⟩
      ⟨t.tape.setCurrent (t.tape.current + 1), _, _⟩
    rw [hcurrent]
    exact h.setCurrent hinj hmem _ h.console
  | dec =>
    change Carried place region ⟨s.tape.setCurrent (s.tape.current - 1), _, _⟩
      ⟨t.tape.setCurrent (t.tape.current - 1), _, _⟩
    rw [hcurrent]
    exact h.setCurrent hinj hmem _ h.console
  | left => exact h.moveTo (hmoved (-1))
  | right => exact h.moveTo (hmoved 1)
  | read =>
    change Carried place region ⟨s.tape.setCurrent s.console.read.1, s.console.read.2, _⟩
      ⟨t.tape.setCurrent t.console.read.1, t.console.read.2, _⟩
    rw [hread]
    exact h.setCurrent hinj hmem _ rfl
  | write =>
    refine ⟨h.pointer, h.get, ?_⟩
    change t.console.write t.tape.current = s.console.write s.tape.current
    rw [hcurrent, h.console]

theorem Displaced.perform
    (hwrap : ∀ index, IndexSpace.wrap (index + shift) = IndexSpace.wrap index + shift)
    (h : s.Displaced shift region t) (hmem : s.tape.pointer ∈ region) (action : Action) :
    (s.perform action).Displaced shift region (t.perform action) := by
  have hcarried : (s.perform action).Carried (· + shift) region (t.perform action) := by
    have hinj : Set.InjOn (· + shift) region := fun _ _ _ _ => (Int.add_left_inj shift).1
    refine h.toCarried.perform hinj (fun index distance => ?_) hmem action
    rw [Int.add_right_comm, hwrap]
  refine ⟨hcarried, ?_⟩
  cases action with
  | inc | dec | right | read | write => exact h.lowest
  | left =>
    have hpointer := hcarried.pointer
    have hlowest := h.lowest
    simp only [Store.perform, observe] at hpointer ⊢
    omega

end Spaces

end Store

end ByteTape
