import ByteTape.Phrase
import ByteTape.Proofs.Band

/-!
# Phrases on a band

What the phrases do to the few cells they reach. A block without loops is run by `straight`, which
computes, so its effect on known cells holds by `rfl`.
-/

namespace ByteTape

open scoped Stream'

namespace Block

variable {σ : Type} {device : Device σ}

/-- The result of a block that has no loops. -/
def straight (device : Device σ) : Block → σ → Option σ
  | .done, s => some s
  | .act action rest, s => straight device rest (device.perform action s)
  | .loop _ _, _ => none

theorem Takes.straight {block : Block} {s t : σ} (h : block.straight device s = some t) :
    Takes device block s t := by
  induction block generalizing s with
  | done =>
    cases h
    exact .refl _
  | act action rest ih => exact .act (ih h)
  | loop body rest => cases h

end Block

open Block Phrase

variable {a b : Stream' UInt8} {l : Int} {m : Nat} {c : Console}

namespace Phrase

section Loops

variable {σ : Type} {device : Device σ} {body : Block} {s u t : σ}

theorem takes_loop_leave (hzero : device.nonzero s = false) : Takes device (loop body) s s :=
  .leave hzero (.refl s)

theorem takes_loop_again (hnonzero : device.nonzero s = true) (round : Takes device body s u)
    (h : Takes device (loop body) u t) : Takes device (loop body) s t :=
  .again hnonzero round h

theorem takes_loop_once (hnonzero : device.nonzero s = true) (round : Takes device body s t)
    (hzero : device.nonzero t = false) : Takes device (loop body) s t :=
  takes_loop_again hnonzero round (takes_loop_leave hzero)

theorem takes_loop_enter (hnonzero : device.nonzero s = true)
    (h : Takes device (body ++ loop body) s t) : Takes device (loop body) s t := by
  obtain ⟨cost, heval⟩ := h
  obtain ⟨u, first, second, hround, hloop, -⟩ := heval.exists_of_append
  exact takes_loop_again hnonzero ⟨first, hround⟩ ⟨second, hloop⟩

/-- A loop whose body ends with `tail` goes on as if it had been entered before `tail`. -/
theorem takes_loop_turn {tail : Block} (hnonzero : device.nonzero s = true)
    (round : Takes device body s u) (h : Takes device (tail ++ loop (body ++ tail)) u t) :
    Takes device (loop (body ++ tail)) s t := by
  apply takes_loop_enter hnonzero
  rw [Block.append_assoc]
  exact round.append h

end Loops

/-- A loop that counts its cell down and counts something else up. -/
theorem takes_countdown {body : Block} (state : UInt8 → UInt8 → Band)
    (hhead : ∀ v n, (state v n).ahead.head = v)
    (hround : ∀ v n, Takes Band.device body (state v n) (state (v - 1) (n + 1))) (v n : UInt8) :
    Takes Band.device (loop body) (state v n) (state 0 (n + v)) := by
  induction hk : v.toNat generalizing v n with
  | zero =>
    obtain rfl : v = 0 := UInt8.toNat_inj.1 hk
    rw [UInt8.add_zero]
    refine takes_loop_leave ?_
    simp [Band.device, hhead]
  | succ k ih =>
    have hv : v ≠ 0 := by
      rintro rfl
      cases hk
    have hpred : (v - 1).toNat = k := by
      rw [UInt8.toNat_sub_of_le _ _ (by rw [UInt8.le_iff_toNat_le, hk]; simp)]
      simp [hk]
    have hsum : n + v = n + 1 + (v - 1) := by grind
    rw [hsum]
    refine takes_loop_again ?_ (hround v n) (ih (v - 1) (n + 1) hpred)
    simp [Band.device, hhead, hv]

theorem takes_clear (v : UInt8) :
    Takes Band.device clear ⟨b, v :: a, l, m, c⟩ ⟨b, 0 :: a, l, m, c⟩ :=
  takes_countdown (fun w _ => ⟨b, w :: a, l, m, c⟩) (fun _ _ => rfl) (fun _ _ => .straight rfl) v 0

theorem takes_dec_one : Takes Band.device dec ⟨b, 1 :: a, l, m, c⟩ ⟨b, 0 :: a, l, m, c⟩ := by
  have hdec : Takes Band.device dec ⟨b, 1 :: a, l, m, c⟩ ⟨b, (1 - 1) :: a, l, m, c⟩ :=
    .straight rfl
  exact hdec

theorem takes_away {σ : Type} {device : Device σ} {distance : Int} {block : Block} {s u v t : σ}
    (hgo : Takes device (go distance) s u) (h : Takes device block u v)
    (hback : Takes device (go (-distance)) v t) : Takes device (away distance block) s t :=
  (hgo.append h).append hback

theorem takes_go_right (cells : List UInt8) :
    Takes Band.device (go cells.length) ⟨b, cells ++ₛ a, l, m, c⟩
      ⟨cells.reverse ++ₛ b, a, l, m + cells.length, c⟩ := by
  induction cells generalizing b m with
  | nil => exact .refl _
  | cons cell cells ih =>
    have hmargin : m + (cell :: cells).length = m + 1 + cells.length := by
      rw [List.length_cons]
      omega
    rw [List.reverse_cons, Stream'.append_append_stream, hmargin]
    exact .act ih

theorem takes_go_left (cells : List UInt8) :
    Takes Band.device (go (-cells.length)) ⟨cells ++ₛ b, a, l, m + cells.length, c⟩
      ⟨b, cells.reverse ++ₛ a, l, m, c⟩ := by
  have hgo (count : Nat) : go (-count) = times count (single .left) := by cases count <;> rfl
  rw [hgo]
  induction cells generalizing a with
  | nil => exact .refl _
  | cons cell cells ih =>
    rw [List.reverse_cons, Stream'.append_append_stream]
    exact .act ih

/-- Behind `cells`, which are passed twice. -/
theorem takes_away_right {block : Block} {a' : Stream' UInt8} (cells : List UInt8)
    (h : Takes Band.device block ⟨cells.reverse ++ₛ b, a, l, m + cells.length, c⟩
      ⟨cells.reverse ++ₛ b, a', l, m + cells.length, c⟩) :
    Takes Band.device (away cells.length block) ⟨b, cells ++ₛ a, l, m, c⟩
      ⟨b, cells ++ₛ a', l, m, c⟩ := by
  have hback := takes_go_left cells.reverse (a := a') (b := b) (l := l) (m := m) (c := c)
  rw [List.reverse_reverse, List.length_reverse] at hback
  exact takes_away (takes_go_right cells) h hback

/-- To a cell on the right, with `between` on the way. -/
theorem takes_drain (v d : UInt8) (between : List UInt8) :
    Takes Band.device (drain [(between.length + 1 : Nat)])
      ⟨b, v :: (between ++ₛ (d :: a)), l, m, c⟩
      ⟨b, 0 :: (between ++ₛ ((d + v) :: a)), l, m, c⟩ := by
  refine takes_countdown (fun w n => ⟨b, w :: (between ++ₛ (n :: a)), l, m, c⟩) (fun _ _ => rfl)
    (fun w n => ?_) v d
  have hdec : Takes Band.device dec ⟨b, w :: (between ++ₛ (n :: a)), l, m, c⟩
      ⟨b, (w - 1) :: (between ++ₛ (n :: a)), l, m, c⟩ := .straight rfl
  exact hdec.append (takes_away_right ((w - 1) :: between) (.straight rfl))

theorem takes_drain_back_three (v x y d : UInt8) :
    Takes Band.device (drain [-3]) ⟨x :: y :: d :: b, v :: a, l, m + 3, c⟩
      ⟨x :: y :: (d + v) :: b, 0 :: a, l, m + 3, c⟩ :=
  takes_countdown (fun w n => ⟨x :: y :: n :: b, w :: a, l, m + 3, c⟩) (fun _ _ => rfl)
    (fun _ _ => .straight rfl) v d

theorem takes_drain_back_both (v : UInt8) :
    Takes Band.device (drain [-1, -2]) ⟨0 :: 0 :: b, v :: a, l, m + 2, c⟩
      ⟨v :: v :: b, 0 :: a, l, m + 2, c⟩ := by
  have hdrain : Takes Band.device (drain [-1, -2]) ⟨0 :: 0 :: b, v :: a, l, m + 2, c⟩
      ⟨(0 + v) :: (0 + v) :: b, 0 :: a, l, m + 2, c⟩ :=
    takes_countdown (fun w n => ⟨n :: n :: b, w :: a, l, m + 2, c⟩) (fun _ _ => rfl)
      (fun _ _ => .straight rfl) v 0
  rwa [UInt8.zero_add] at hdrain


end Phrase

end ByteTape
