import ByteTape.Proofs.Limit

/-!
# Where a step limit cuts a run

A run has a last state in which it has not halted, and halts there for one of two reasons: the
program is at its end, or no steps are left. The end comes first. So a run with a limit either is
the run without one, which has completed in time, or it is that run halted after as many steps as
the limit allows, with an opcode still to be executed: `step_limit_cuts_run`.
-/

namespace ByteTape

namespace Machine

variable {machine : Machine} {program : Program} {trace : Bool} {limit : Nat}

theorem halts_iterate_iff {s t : State} (count : Nat) :
    machine.Halts (machine.step^[count] s) t ↔ machine.Halts s t := by
  rw [halts_iff, halts_iff]
  refine and_congr_left fun hhalt => ⟨?_, ?_⟩
  · rintro ⟨more, rfl⟩
    exact ⟨more + count, Function.iterate_add_apply _ _ _ _⟩
  · rintro ⟨more, rfl⟩
    refine ⟨more, ?_⟩
    rw [← Function.iterate_add_apply]
    exact iterate_step_eq_of_le (Nat.le_add_right more count) hhalt

theorem running_of_le {s : State} {count more : Nat} (hle : count ≤ more)
    (h : (machine.step^[more] s).halt? = none) : (machine.step^[count] s).halt? = none := by
  by_contra hhalt
  have hsame := iterate_step_eq_of_le hle (Option.isSome_iff_ne_none.2 hhalt)
  rw [hsame] at h
  exact hhalt h

/-! ### The last state of a run -/

theorem steps_iterate_start {tape : Tape} {input : List UInt8} {count : Nat}
    (h : (machine.step^[count] (.start tape input)).halt? = none) :
    (machine.step^[count] (.start tape input)).steps = count :=
  (steps_iterate h).trans (Nat.zero_add count)

/-- The two ways to halt, and where the machine stands then. -/
theorem step_halts_cases {s : State} (hs : s.halt? = none) (h : (machine.step s).halt?.isSome) :
    (machine.program.code.length ≤ s.position ∧ machine.step s = s.halt .completed) ∨
      (s.position < machine.program.code.length ∧ machine.config.spent s.steps = true ∧
        machine.step s = s.halt .stepLimit) := by
  cases hop : machine.program.code[s.position]? with
  | none =>
    have hend := List.getElem?_eq_none_iff.1 hop
    exact .inl ⟨hend, step_of_end hs hend⟩
  | some op =>
    cases hspent : machine.config.spent s.steps with
    | true =>
      obtain ⟨hlt, -⟩ := List.getElem?_eq_some_iff.1 hop
      exact .inr ⟨hlt, rfl, step_of_spent hs hop hspent⟩
    | false =>
      rw [step_of_opcode hs hop hspent, (steps_execute _ _ _).2, hs] at h
      cases h

theorem Halts.exists_last {tape : Tape} {input : List UInt8} {final : State}
    (h : machine.Halts (.start tape input) final) :
    (machine.step^[final.steps] (.start tape input)).halt? = none ∧
      machine.step (machine.step^[final.steps] (.start tape input)) = final := by
  obtain ⟨⟨count, hcount⟩, hhalt⟩ := halts_iff.1 h
  induction count generalizing final with
  | zero =>
    rw [← hcount] at hhalt
    cases hhalt
  | succ count ih =>
    cases hbefore : (machine.step^[count] (.start tape input)).halt? with
    | some reason =>
      have hsome : (machine.step^[count] (.start tape input)).halt?.isSome := by
        rw [hbefore]
        rfl
      rw [Function.iterate_succ_apply', step_of_halted hsome] at hcount
      exact ih h hhalt hcount
    | none =>
      -- Halting executes nothing, so the steps taken are those of the state before it.
      have hsteps : final.steps = count := by
        rw [← hcount, Function.iterate_succ_apply'] at hhalt ⊢
        rcases step_halts_cases hbefore hhalt with ⟨-, hstep⟩ | ⟨-, -, hstep⟩
        · rw [hstep]
          exact steps_iterate_start hbefore
        · rw [hstep]
          exact steps_iterate_start hbefore
      rw [hsteps]
      exact ⟨hbefore, by rw [← Function.iterate_succ_apply' machine.step, hcount]⟩

/-! ### With a limit and without -/

section Start

variable {tape : Tape} {input : List UInt8} {final whole : State}

theorem Halts.completed (h : (unlimited program trace).Halts (.start tape input) whole) :
    whole.halt? = some .completed := by
  obtain ⟨block, hblock⟩ := program.exists_block
  obtain ⟨cost, t, -, rfl⟩ := (halts_iff_evaluates hblock).1 h
  rfl

theorem Halts.steps_le_limit (h : (limited program trace limit).Halts (.start tape input) final) :
    final.steps ≤ limit := by
  by_contra hlt
  have hnext := running_of_le (Nat.lt_of_not_le hlt) h.exists_last.1
  rw [Function.iterate_succ_apply'] at hnext
  have hspent : ((limited program trace limit).step^[limit] (.start tape input)).halt? = none →
      (limited program trace limit).config.spent
        ((limited program trace limit).step^[limit] (.start tape input)).steps = true := by
    intro hhalt
    rw [steps_iterate_start hhalt]
    exact decide_eq_true (Nat.le_refl limit)
  obtain ⟨hhalt, -⟩ := step_of_no_room hspent
  rw [hnext] at hhalt
  cases hhalt

/-- A limited run is the whole run, or it is stopped in front of an opcode. -/
theorem Halts.limited_cases (h : (limited program trace limit).Halts (.start tape input) final) :
    (unlimited program trace).Halts (.start tape input) final ∨
      ∃ cut, (unlimited program trace).step^[limit] (.start tape input) = cut ∧
        cut.halt? = none ∧ cut.position < program.code.length ∧ cut.steps = limit ∧
        final = cut.halt .stepLimit := by
  obtain ⟨hlast, hstep⟩ := h.exists_last
  have hhalt : final.halt?.isSome := (halts_iff.1 h).2
  have hle := h.steps_le_limit
  have hsame : (limited program trace limit).step^[final.steps] (.start tape input) =
      (unlimited program trace).step^[final.steps] (.start tape input) :=
    iterate_step_limited _ ((Nat.zero_add _).trans_le hle)
  have hsteps := steps_iterate_start hlast
  rw [hsame] at hlast hstep hsteps
  rcases step_halts_cases hlast (by rwa [hstep]) with ⟨hend, hfinal⟩ | ⟨hlt, hspent, hfinal⟩
  · refine .inl (halts_iff.2 ⟨⟨final.steps + 1, ?_⟩, hhalt⟩)
    have hcompleted : (unlimited program trace).step _ = State.halt _ .completed :=
      step_of_end hlast hend
    rw [Function.iterate_succ_apply', hcompleted, ← hfinal, hstep]
  · have hreached : limit ≤ final.steps := by
      rw [hsteps] at hspent
      exact of_decide_eq_true hspent
    have hlimit : final.steps = limit := Nat.le_antisymm hle hreached
    rw [hlimit] at hlast hlt hsteps hstep hfinal
    exact .inr ⟨_, rfl, hlast, hlt, hsteps, hstep.symm.trans hfinal⟩

/-- A run that is stopped in front of an opcode would have gone on. -/
theorem lt_steps_of_cut {cut : State}
    (hcut : (unlimited program trace).step^[limit] (.start tape input) = cut)
    (hrunning : cut.halt? = none) (hlt : cut.position < program.code.length)
    (hwhole : (unlimited program trace).Halts (.start tape input) whole) : limit < whole.steps := by
  obtain ⟨hlast, hstep⟩ := hwhole.exists_last
  have hhalt : whole.halt?.isSome := (halts_iff.1 hwhole).2
  by_contra hle
  rcases Nat.lt_or_eq_of_le (Nat.le_of_not_lt hle) with hless | hequal
  · rw [← hcut] at hrunning
    have hnext := running_of_le (Nat.succ_le_of_lt hless) hrunning
    rw [Function.iterate_succ_apply', hstep] at hnext
    rw [hnext] at hhalt
    cases hhalt
  · rw [hequal, hcut] at hstep
    rw [← hstep] at hhalt
    rcases step_halts_cases hrunning hhalt with ⟨hend, -⟩ | ⟨-, hspent, -⟩
    · exact absurd hlt (Nat.not_lt.2 hend)
    · cases hspent

theorem Halts.store_limited (h : (limited program trace limit).Halts (.start tape input) final) :
    final.store = ((unlimited program trace).step^[limit] (.start tape input)).store := by
  obtain ⟨stopped, hstopped, hstore⟩ := exists_halts_limited program trace limit tape input
  rw [h.unique hstopped, hstore]

theorem Halts.steps_le_steps {limit' : Nat} {final' : State} (hle : limit ≤ limit')
    (h : (limited program trace limit).Halts (.start tape input) final)
    (h' : (limited program trace limit').Halts (.start tape input) final') :
    final.steps ≤ final'.steps := by
  rcases h'.limited_cases with hwhole' | ⟨cut', -, -, -, hsteps', rfl⟩
  · rcases h.limited_cases with hwhole | ⟨cut, hcut, hrunning, hlt, hsteps, rfl⟩
    · rw [hwhole.unique hwhole']
    · exact hsteps.trans_le (lt_steps_of_cut hcut hrunning hlt hwhole').le
  · exact (h.steps_le_limit.trans hle).trans_eq hsteps'.symm

end Start

/-- **A step limit cuts the run.** A run with a limit halts. If the run without a limit completes in
no more steps, also in exactly as many, it is that run. Otherwise it is that run after its first
steps, halted when there are as many as the limit, with the reason given. A larger limit keeps what
was put out and how far left the pointer was, and takes no fewer steps. Steps taken before a run
belong to it. -/
theorem step_limit_cuts_run (program : Program) (trace : Bool) (tape : Tape) (input : List UInt8) :
    (∀ limit, (∃ final, (limited program trace limit).Halts (.start tape input) final) ∧
      ∀ final, (limited program trace limit).Halts (.start tape input) final →
        (∀ whole, (unlimited program trace).Halts (.start tape input) whole →
          whole.steps ≤ limit → final = whole ∧ final.halt? = some .completed) ∧
        ((¬∃ whole, (unlimited program trace).Halts (.start tape input) whole ∧
          whole.steps ≤ limit) →
            ∃ cut, (unlimited program trace).step^[limit] (.start tape input) = cut ∧
              cut.halt? = none ∧ cut.steps = limit ∧
              final = ⟨cut.store, cut.position, limit, some .stepLimit⟩)) ∧
    (∀ limit limit' final final', limit ≤ limit' →
      (limited program trace limit).Halts (.start tape input) final →
      (limited program trace limit').Halts (.start tape input) final' →
        final.store.console.output.toList <+: final'.store.console.output.toList ∧
        final'.store.lowest ≤ final.store.lowest ∧ final.steps ≤ final'.steps) ∧
    ∀ config count final,
      Halts ⟨program, config⟩ ((step ⟨program, config⟩)^[count] (.start tape input)) final ↔
        Halts ⟨program, config⟩ (.start tape input) final := by
  refine ⟨fun limit => ⟨?_, fun final hfinal => ⟨?_, ?_⟩⟩, ?_, ?_⟩
  · obtain ⟨final, hfinal, -⟩ := exists_halts_limited program trace limit tape input
    exact ⟨final, hfinal⟩
  · intro whole hwhole hle
    rcases hfinal.limited_cases with hfinal | ⟨cut, hcut, hrunning, hlt, -, -⟩
    · obtain rfl := hfinal.unique hwhole
      exact ⟨rfl, hwhole.completed⟩
    · exact absurd (lt_steps_of_cut hcut hrunning hlt hwhole) (Nat.not_lt.2 hle)
  · intro hnone
    rcases hfinal.limited_cases with hwhole | ⟨cut, hcut, hrunning, -, hsteps, rfl⟩
    · exact absurd ⟨final, hwhole, hfinal.steps_le_limit⟩ hnone
    · exact ⟨cut, hcut, hrunning, hsteps, by rw [State.halt, hsteps]⟩
  · intro limit limit' final final' hle hfinal hfinal'
    refine ⟨?_, ?_, hfinal.steps_le_steps hle hfinal'⟩
    · rw [hfinal.store_limited, hfinal'.store_limited]
      exact output_prefix_iterate _ _ hle
    · rw [hfinal.store_limited, hfinal'.store_limited]
      exact lowest_iterate_le (unlimited program trace) tape input hle
  · intro config count final
    exact halts_iterate_iff count

end Machine

end ByteTape
