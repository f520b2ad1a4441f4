import ByteTape.Block

/-!
# Evaluation of blocks

What holds of blocks on every device. An evaluation of two blocks in a row splits at the seam, the
small steps of `advance` and the rules of `Evaluates` agree on where a block ends, and an evaluation
on one device can be followed on another that answers alike.
-/

namespace ByteTape

/-- Devices that stay related under every action and agree on when a loop goes on. -/
structure Device.Bisimulation {σ τ : Type} (d : Device σ) (e : Device τ) (R : σ → τ → Prop) :
    Prop where
  perform : ∀ {s : σ} {t : τ} (action : Action), R s t → R (d.perform action s) (e.perform action t)
  nonzero : ∀ {s : σ} {t : τ}, R s t → d.nonzero s = e.nonzero t

theorem Device.Bisimulation.symm {σ τ : Type} {d : Device σ} {e : Device τ} {R : σ → τ → Prop}
    (h : d.Bisimulation e R) : e.Bisimulation d fun t s => R s t where
  perform action hst := h.perform action hst
  nonzero hst := (h.nonzero hst).symm

namespace Block

variable {σ τ : Type} {device : Device σ}

@[simp]
theorem done_append (block : Block) : Block.done ++ block = block := rfl

@[simp]
theorem act_append (action : Action) (rest tail : Block) :
    Block.act action rest ++ tail = .act action (rest ++ tail) := rfl

@[simp]
theorem loop_append (body rest tail : Block) :
    Block.loop body rest ++ tail = .loop body (rest ++ tail) := rfl

@[simp]
theorem append_done (block : Block) : block ++ Block.done = block := by
  induction block with
  | done => rfl
  | act action rest ih => rw [act_append, ih]
  | loop body rest _ ih => rw [loop_append, ih]

theorem append_assoc (a b c : Block) : a ++ b ++ c = a ++ (b ++ c) := by
  induction a with
  | done => rfl
  | act action rest ih => simp only [act_append, ih]
  | loop body rest _ ih => simp only [loop_append, ih]

theorem Evaluates.append {a b : Block} {s u t : σ} {cost more : Nat}
    (h : Evaluates device a s cost u) (h' : Evaluates device b u more t) :
    Evaluates device (a ++ b) s (cost + more) t := by
  induction h with
  | done =>
    rw [Nat.zero_add]
    exact h'
  | act tail ih =>
    rw [Nat.add_right_comm]
    exact .act (ih h')
  | leave hzero tail ih =>
    rw [Nat.add_right_comm]
    exact .leave hzero (ih h')
  | @again body rest s u t cost more' hnonzero round tail ihround ihtail =>
    have hcost : cost + more' + 2 + more = cost + (more' + more) + 2 := by omega
    rw [hcost]
    exact .again hnonzero round (ihtail h')

theorem Evaluates.exists_of_append {a b : Block} {s t : σ} {total : Nat}
    (h : Evaluates device (a ++ b) s total t) :
    ∃ u cost more, Evaluates device a s cost u ∧ Evaluates device b u more t ∧
      total = cost + more := by
  -- The induction is on the evaluation, since a loop of `a` comes back to itself.
  generalize hblock : a ++ b = block at h
  induction h generalizing a with
  | @done s =>
    cases a with
    | done =>
      obtain rfl : b = .done := hblock
      exact ⟨s, 0, 0, .done, .done, rfl⟩
    | act action rest => cases hblock
    | loop body rest => cases hblock
  | @act action rest s t cost tail ih =>
    cases a with
    | done =>
      obtain rfl : b = .act action rest := hblock
      exact ⟨s, 0, cost + 1, .done, .act tail, (Nat.zero_add _).symm⟩
    | act action' rest' =>
      cases hblock
      obtain ⟨u, first, second, hfirst, hsecond, rfl⟩ := ih rfl
      exact ⟨u, first + 1, second, .act hfirst, hsecond, by omega⟩
    | loop body rest' => cases hblock
  | @leave body rest s t cost hzero tail ih =>
    cases a with
    | done =>
      obtain rfl : b = .loop body rest := hblock
      exact ⟨s, 0, cost + 1, .done, .leave hzero tail, (Nat.zero_add _).symm⟩
    | act action rest' => cases hblock
    | loop body' rest' =>
      cases hblock
      obtain ⟨u, first, second, hfirst, hsecond, rfl⟩ := ih rfl
      exact ⟨u, first + 1, second, .leave hzero hfirst, hsecond, by omega⟩
  | @again body rest s v t cost more hnonzero round tail _ ih =>
    cases a with
    | done =>
      obtain rfl : b = .loop body rest := hblock
      exact ⟨s, 0, cost + more + 2, .done, .again hnonzero round tail, (Nat.zero_add _).symm⟩
    | act action rest' => cases hblock
    | loop body' rest' =>
      cases hblock
      obtain ⟨u, first, second, hfirst, hsecond, rfl⟩ := ih (a := .loop body rest') rfl
      exact ⟨u, cost + first + 2, second, .again hnonzero round hfirst, hsecond, by omega⟩

theorem Evaluates.transport {d : Device σ} {e : Device τ} {R : σ → τ → Prop}
    (hR : d.Bisimulation e R) {block : Block} {s s' : σ} {cost : Nat}
    (h : Evaluates d block s cost s') {t : τ} (hst : R s t) :
    ∃ t', Evaluates e block t cost t' ∧ R s' t' := by
  induction h generalizing t with
  | done => exact ⟨t, .done, hst⟩
  | act tail ih =>
    obtain ⟨t', htail, hst'⟩ := ih (hR.perform _ hst)
    exact ⟨t', .act htail, hst'⟩
  | leave hzero tail ih =>
    obtain ⟨t', htail, hst'⟩ := ih hst
    exact ⟨t', .leave (hR.nonzero hst ▸ hzero) htail, hst'⟩
  | again hnonzero round tail ihround ihtail =>
    obtain ⟨u', hround, hu⟩ := ihround hst
    obtain ⟨t', htail, hst'⟩ := ihtail hu
    exact ⟨t', .again (hR.nonzero hst ▸ hnonzero) hround htail, hst'⟩

theorem Evaluates.invariant {P : σ → Prop} (hP : ∀ (action : Action) (s : σ), P s →
    P (device.perform action s)) {block : Block} {s t : σ} {cost : Nat}
    (h : Evaluates device block s cost t) (hs : P s) : P t := by
  induction h with
  | done => exact hs
  | act tail ih => exact ih (hP _ _ hs)
  | leave hzero tail ih => exact ih hs
  | again hnonzero round tail ihround ihtail => exact ihtail (ihround hs)

/-! ### Evaluations without their cost -/

/-- From `s` the block ends in `t`. -/
def Takes (device : Device σ) (block : Block) (s t : σ) : Prop :=
  ∃ cost, Evaluates device block s cost t

theorem Takes.append {a b : Block} {s u t : σ} (h : Takes device a s u) (h' : Takes device b u t) :
    Takes device (a ++ b) s t := by
  obtain ⟨cost, hcost⟩ := h
  obtain ⟨more, hmore⟩ := h'
  exact ⟨cost + more, hcost.append hmore⟩

instance (a b : Block) :
    Trans (Takes device a) (Takes device b) (Takes device (a ++ b)) where
  trans := Takes.append

theorem Takes.refl (s : σ) : Takes device .done s s := ⟨0, .done⟩

theorem Takes.act {action : Action} {rest : Block} {s t : σ}
    (h : Takes device rest (device.perform action s) t) : Takes device (.act action rest) s t := by
  obtain ⟨cost, hcost⟩ := h
  exact ⟨cost + 1, .act hcost⟩

theorem Takes.leave {body rest : Block} {s t : σ} (hzero : device.nonzero s = false)
    (h : Takes device rest s t) : Takes device (.loop body rest) s t := by
  obtain ⟨cost, hcost⟩ := h
  exact ⟨cost + 1, .leave hzero hcost⟩

theorem Takes.again {body rest : Block} {s u t : σ} (hnonzero : device.nonzero s = true)
    (round : Takes device body s u) (h : Takes device (.loop body rest) u t) :
    Takes device (.loop body rest) s t := by
  obtain ⟨cost, hcost⟩ := round
  obtain ⟨more, hmore⟩ := h
  exact ⟨cost + more + 2, .again hnonzero hcost hmore⟩

/-! ### Small steps -/

theorem next?_loop (body rest : Block) (s : σ) :
    next? device (.loop body rest, s) =
      if device.nonzero s then some (body ++ .loop body rest, s) else some (rest, s) := rfl

theorem next?_eq_none_iff {stage : Block × σ} : next? device stage = none ↔ stage.1 = .done := by
  obtain ⟨block, s⟩ := stage
  cases block with
  | done => simp [next?]
  | act action rest => simp [next?]
  | loop body rest =>
    rw [next?_loop]
    split <;> simp

theorem advance_of_next? {stage stage' : Block × σ} (h : next? device stage = some stage')
    (count : Nat) : advance device (count + 1) stage = advance device count stage' := by
  rw [advance, h]

theorem advance_of_done {stage : Block × σ} (h : stage.1 = .done) (count : Nat) :
    advance device count stage = stage := by
  cases count with
  | zero => rfl
  | succ count => rw [advance, next?_eq_none_iff.2 h]

theorem advance_add (m n : Nat) (stage : Block × σ) :
    advance device (m + n) stage = advance device n (advance device m stage) := by
  induction m generalizing stage with
  | zero => rw [Nat.zero_add, advance]
  | succ m ih =>
    cases h : next? device stage with
    | none =>
      have hdone := next?_eq_none_iff.1 h
      rw [advance_of_done hdone, advance_of_done hdone, advance_of_done hdone]
    | some stage' =>
      rw [Nat.add_right_comm, advance_of_next? h, advance_of_next? h, ih]

theorem advance_eq_of_le {stage : Block × σ} {count more : Nat}
    (h : (advance device count stage).1 = .done) (hle : count ≤ more) :
    advance device more stage = advance device count stage := by
  obtain ⟨extra, rfl⟩ := Nat.exists_eq_add_of_le hle
  rw [advance_add]
  exact advance_of_done h extra

theorem Evaluates.exists_advance {block : Block} {s t : σ} {cost : Nat}
    (h : Evaluates device block s cost t) (rest : Block) :
    ∃ count, advance device count (block ++ rest, s) = (rest, t) := by
  induction h generalizing rest with
  | done => exact ⟨0, rfl⟩
  | act tail ih =>
    obtain ⟨count, hcount⟩ := ih rest
    exact ⟨count + 1, hcount⟩
  | @leave body tail' s t cost hzero tail ih =>
    obtain ⟨count, hcount⟩ := ih rest
    have hnext : next? device (.loop body tail' ++ rest, s) = some (tail' ++ rest, s) := by
      rw [loop_append, next?_loop, hzero]
      rfl
    exact ⟨count + 1, by rw [advance_of_next? hnext, hcount]⟩
  | @again body tail' s u t cost more hnonzero round tail ihround ihtail =>
    obtain ⟨first, hfirst⟩ := ihround (.loop body tail' ++ rest)
    obtain ⟨second, hsecond⟩ := ihtail rest
    have hnext : next? device (.loop body tail' ++ rest, s) =
        some (body ++ (.loop body tail' ++ rest), s) := by
      rw [loop_append, next?_loop, hnonzero]
      rfl
    exact ⟨first + second + 1, by rw [advance_of_next? hnext, advance_add, hfirst, hsecond]⟩

theorem exists_evaluates_of_advance {block : Block} {s t : σ} {count : Nat}
    (h : advance device count (block, s) = (.done, t)) :
    ∃ cost, Evaluates device block s cost t := by
  induction count generalizing block s with
  | zero =>
    cases h
    exact ⟨0, .done⟩
  | succ count ih =>
    cases block with
    | done =>
      cases h
      exact ⟨0, .done⟩
    | act action rest =>
      obtain ⟨cost, hcost⟩ := ih (s := device.perform action s) h
      exact ⟨cost + 1, .act hcost⟩
    | loop body rest =>
      cases hnonzero : device.nonzero s with
      | false =>
        have hnext : next? device (.loop body rest, s) = some (rest, s) := by
          simp [next?_loop, hnonzero]
        rw [advance_of_next? hnext] at h
        obtain ⟨cost, hcost⟩ := ih h
        exact ⟨cost + 1, .leave hnonzero hcost⟩
      | true =>
        have hnext : next? device (.loop body rest, s) = some (body ++ .loop body rest, s) := by
          simp [next?_loop, hnonzero]
        rw [advance_of_next? hnext] at h
        obtain ⟨cost, hcost⟩ := ih h
        obtain ⟨u, first, second, hround, htail, rfl⟩ := hcost.exists_of_append
        exact ⟨first + second + 2, .again hnonzero hround htail⟩

end Block

end ByteTape
