import ByteTape.Proofs.StructuredRun

/-!
# Runs in lockstep

A program reads its store only to decide whether a loop goes on. So if stores that are related stay
related under every action and agree on that decision, the runs on them pass the same opcodes and
halt together. It is enough that stores stay related as long as the first one meets a condition, if
that condition still holds when the first run has halted.
-/

namespace ByteTape

/-- Devices that stay related as long as the first one meets `P`, and agree until then on when a loop
goes on. What has once failed to meet `P` never meets it again. -/
structure Device.BisimulationWhile {σ τ : Type} (P : σ → Prop) (d : Device σ) (e : Device τ)
    (R : σ → τ → Prop) : Prop where
  before : ∀ {s : σ} (action : Action), P (d.perform action s) → P s
  perform : ∀ {s : σ} {t : τ} (action : Action), P (d.perform action s) → R s t →
    R (d.perform action s) (e.perform action t)
  nonzero : ∀ {s : σ} {t : τ}, P s → R s t → d.nonzero s = e.nonzero t

namespace Machine

/-- The same moment of two runs, with related stores. -/
structure State.Matches (R : Store → Store → Prop) (s t : State) : Prop where
  store : R s.store t.store
  position : s.position = t.position
  steps : s.steps = t.steps
  halt : s.halt? = t.halt?

variable {machine : Machine} {P : Store → Prop} {R : Store → Store → Prop} {s t : State}

theorem State.Matches.symm (h : s.Matches R t) : t.Matches (fun a b => R b a) s where
  store := h.store
  position := h.position.symm
  steps := h.steps.symm
  halt := h.halt.symm

/-- What a machine does next depends on the store in no way. -/
theorem State.Matches.move_eq (h : s.Matches R t) : machine.move s = machine.move t := by
  rw [move, move, h.halt, h.position, h.steps]

variable [IndexSpace]

theorem State.Matches.execute (h : s.Matches R t) (hnonzero : s.store.nonzero = t.store.nonzero)
    (program : Program) {op : Opcode}
    (hperform : ∀ action, op = .act action →
      R (s.store.perform action) (t.store.perform action)) :
    (Machine.execute program op s).Matches R (Machine.execute program op t) := by
  obtain ⟨store, position, steps, halt?⟩ := s
  obtain ⟨store', position', steps', halt'?⟩ := t
  obtain ⟨hstore, rfl, rfl, rfl⟩ := h
  cases op with
  | act action => exact ⟨hperform action rfl, rfl, rfl, rfl⟩
  | loopBegin =>
    simp only at hnonzero
    simp only [Machine.execute, hnonzero]
    split
    · exact ⟨hstore, rfl, rfl, rfl⟩
    · exact ⟨hstore, rfl, rfl, rfl⟩
  | loopEnd => exact ⟨hstore, rfl, rfl, rfl⟩

/-- A step needs related stores to stay related only under the action that it performs. -/
theorem State.Matches.step_of_perform (h : s.Matches R t)
    (hnonzero : s.store.nonzero = t.store.nonzero)
    (hperform : ∀ action, machine.move s = .execute (.act action) →
      R (s.store.perform action) (t.store.perform action)) :
    (machine.step s).Matches R (machine.step t) := by
  rw [Machine.step, Machine.step, ← h.move_eq]
  cases hmove : machine.move s with
  | rest => exact h
  | halt reason => exact ⟨h.store, h.position, h.steps, rfl⟩
  | execute op =>
    apply h.execute hnonzero machine.program
    rintro action rfl
    exact hperform action hmove

theorem before_step (hR : Device.BisimulationWhile P Store.device Store.device R)
    (hP : P (machine.step s).store) : P s.store := by
  obtain hstore | ⟨action, -, hstore⟩ := machine.store_step s
  · rwa [hstore] at hP
  · rw [hstore] at hP
    exact hR.before action hP

theorem State.Matches.step (hR : Device.BisimulationWhile P Store.device Store.device R)
    (h : s.Matches R t) (hP : P (machine.step s).store) :
    (machine.step s).Matches R (machine.step t) := by
  apply h.step_of_perform (hR.nonzero (before_step hR hP) h.store)
  intro action hmove
  rw [Machine.step, hmove] at hP
  exact hR.perform action hP h.store

theorem State.Matches.iterate (hR : Device.BisimulationWhile P Store.device Store.device R)
    (h : s.Matches R t) {count : Nat} (hP : P (machine.step^[count] s).store) :
    (machine.step^[count] s).Matches R (machine.step^[count] t) := by
  induction count with
  | zero => exact h
  | succ count ih =>
    rw [Function.iterate_succ_apply'] at hP ⊢
    rw [Function.iterate_succ_apply']
    exact (ih (before_step hR hP)).step hR hP

theorem Halts.exists_matches_while (hR : Device.BisimulationWhile P Store.device Store.device R)
    {final : State} (hfinal : machine.Halts s final) (hP : P final.store) (h : s.Matches R t) :
    ∃ final', machine.Halts t final' ∧ final.Matches R final' := by
  obtain ⟨⟨count, rfl⟩, hhalt⟩ := halts_iff.1 hfinal
  have hmatches : (machine.step^[count] s).Matches R (machine.step^[count] t) := h.iterate hR hP
  exact ⟨_, halts_iff.2 ⟨⟨count, rfl⟩, hmatches.halt ▸ hhalt⟩, hmatches⟩

end Machine

end ByteTape
