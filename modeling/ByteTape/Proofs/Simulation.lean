import ByteTape.Proofs.Placement

/-!
# The machine at work on assembled code

Between the codes of commands the tape holds a row of chains. From there the machine goes through
the code of a command, or to a bracket of a loop and on from its partner, and comes to the end of
the code of some command with the row that the command leaves. So single steps of the source on rows
of chains become stretches of the run, each with the last opcode of a command as its last step.
-/

namespace ByteTape

open Block (Takes Evaluates)
open Operation

namespace Store

/-- The tape holds the row, with the pointer on the active chain. -/
def Shows (store : Store) (s : Chains) : Prop :=
  store.lowest ≤ store.tape.pointer ∧ store.band = s.band

theorem exists_evaluates_of_takes {store : Store} {block : Block} {b : Band}
    (hlowest : store.lowest ≤ store.tape.pointer) (h : Takes Band.device block store.band b) :
    ∃ cost store', Evaluates device block store cost store' ∧
      store'.lowest ≤ store'.tape.pointer ∧ store'.band = b := by
  obtain ⟨cost, heval⟩ := h
  exact ⟨cost, exists_evaluates_of_band hlowest heval⟩

end Store

namespace Machine

/-- From `s` to `t`, with the last step at a position of `ends` and no other. -/
def Completes (machine : Machine) (ends : Set Nat) (s t : State) : Prop :=
  ∃ count u, machine.Passes endsᶜ count s u ∧ u.position ∈ ends ∧ machine.step u = t

theorem Passes.completes {machine : Machine} {ends : Set Nat} {count : Nat} {s u t : State}
    (h : machine.Passes endsᶜ count s u) (h' : machine.Completes ends u t) :
    machine.Completes ends s t := by
  obtain ⟨more, v, hpasses, hend, hstep⟩ := h'
  exact ⟨count + more, v, h.trans hpasses, hend, hstep⟩

/-- The last positions of the commands of a source. -/
abbrev lastPositions (source : Code) : Set Nat := {position | IsLast (source.map command) position}

variable {source : Code} {program : Program} {trace : Bool} {place steps : Nat} {store : Store}
  {s : Chains} {body : Block}

/-- The last opcode of a command. -/
theorem completes_last {action : Action} {position count : Nat} (hcount : count ≤ source.length)
    (hop : program.code[position]? = some (.act action))
    (hend : position + 1 = offset (source.map command) count) :
    (unlimited program trace).Completes (lastPositions source) ⟨store, position, steps, none⟩
      ⟨store.perform action, offset (source.map command) count, steps + 1, none⟩ := by
  refine ⟨0, _, .refl _ _, isLast_of_offset hcount hend, ?_⟩
  rw [← hend]
  exact step_act hop

/-- Code that ends with an action outside its loops. -/
theorem completes_of_takes {front : Block} {last : Action} {position count : Nat} {b : Band}
    (hcount : count ≤ source.length)
    (hstands : Code.Stands (front.code ++ [.act last]) program.code position)
    (hend : position + front.code.length + 1 = offset (source.map command) count)
    (hinner : ∀ p, position ≤ p → p + 1 < offset (source.map command) count →
      ¬IsLast (source.map command) p)
    (hlowest : store.lowest ≤ store.tape.pointer)
    (htakes : Takes Band.device (front ++ .act last .done) store.band b) :
    ∃ store' steps', store'.lowest ≤ store'.tape.pointer ∧ store'.band = b ∧
      (unlimited program trace).Completes (lastPositions source) ⟨store, position, steps, none⟩
        ⟨store', offset (source.map command) count, steps', none⟩ := by
  obtain ⟨cost, store', heval, hlowest', hband⟩ := Store.exists_evaluates_of_takes hlowest htakes
  obtain ⟨u, first, second, hfront, hlast, -⟩ := heval.exists_of_append
  obtain ⟨hstandsFront, hstandsLast⟩ := hstands.append
  cases hlast with
  | act tail =>
    cases tail
    have hpasses : (unlimited program trace).Passes (lastPositions source)ᶜ first
        ⟨store, position, steps, none⟩ ⟨u, position + front.code.length, steps + first, none⟩ := by
      refine (passes_of_evaluates hfront hstandsFront).mono fun p hp => ?_
      exact hinner p hp.1 (by rw [← hend]; exact Nat.succ_lt_succ hp.2)
    exact ⟨_, _, hlowest', hband,
      hpasses.completes (completes_last hcount hstandsLast.cons.1 hend)⟩

theorem completes_act (hcode : program.code = compile (source.map command)) {action : Action}
    (hop : source[place]? = some (.act action)) (hshows : store.Shows s) :
    ∃ store' steps', store'.Shows (s.perform action) ∧
      (unlimited program trace).Completes (lastPositions source)
        ⟨store, offset (source.map command) place, steps, none⟩
        ⟨store', offset (source.map command) (place + 1), steps', none⟩ := by
  obtain ⟨front, last, hfragment, htakes⟩ := exists_fragment_act action
  have hrow := htakes s
  rw [← hshows.2] at hrow
  obtain ⟨hplace, -⟩ := List.getElem?_eq_some_iff.1 hop
  have hend := offset_command hop
  have hstands := stands_command hop
  rw [hfragment, ← hcode] at hstands
  rw [hfragment, List.length_append, ← Nat.add_assoc, List.length_singleton] at hend
  obtain ⟨store', steps', hlowest, hband, hcompletes⟩ :=
    completes_of_takes hplace hstands hend.symm (fun _ => not_isLast place) hshows.1 hrow
  exact ⟨store', steps', ⟨hlowest, hband⟩, hcompletes⟩

theorem completes_preamble (hcode : program.code = compile (source.map command))
    (input : List UInt8) :
    ∃ store steps', store.Shows (.start input) ∧
      (unlimited program trace).Completes (lastPositions source) (.start .empty input)
        ⟨store, offset (source.map command) 0, steps', none⟩ := by
  have hstands : Code.Stands ((Phrase.go preambleMargin).code ++ [.act .inc]) program.code 0 := by
    rw [hcode, compile, fragment_preamble]
    exact ⟨_, rfl⟩
  have hinner : ∀ p, 0 ≤ p → p + 1 < offset (source.map command) 0 →
      ¬IsLast (source.map command) p := by
    rintro p - hp ⟨count, -, hcount⟩
    have hle : offset (source.map command) 0 ≤ offset (source.map command) count :=
      offset_le_offset (Nat.zero_le count)
    omega
  obtain ⟨store, steps', hlowest, hband, hcompletes⟩ :=
    completes_of_takes (Nat.zero_le _) hstands rfl hinner (Int.le_refl _) (takes_preamble input)
  exact ⟨store, steps', ⟨hlowest, hband⟩, hcompletes⟩

/-! ### Loops -/

/-- From the start of a command of a loop to its bracket. -/
theorem passes_test (hcode : program.code = compile (source.map command)) {op : Opcode}
    {rest : Code} (hop : source[place]? = some op)
    (hfragment : (command op).fragment = nonzeroTest.fragment ++ .act .right :: rest)
    (hrest : rest ≠ []) (hshows : store.Shows s) :
    ∃ count store', store'.lowest ≤ store'.tape.pointer ∧
      store'.band = (testedBand s).perform .right ∧
      (unlimited program trace).Passes (lastPositions source)ᶜ count
        ⟨store, offset (source.map command) place, steps, none⟩
        ⟨store', bracketPosition (source.map command) place, steps + count,
          none⟩ := by
  obtain ⟨test, htest, htakes⟩ := exists_fragment_nonzeroTest
  have htakes' : Takes Band.device (test ++ .act .right .done) store.band
      ((testedBand s).perform .right) := by
    rw [hshows.2]
    exact (htakes s).append (.act (.refl _))
  obtain ⟨cost, store', heval, hlowest, hband⟩ := Store.exists_evaluates_of_takes hshows.1 htakes'
  have hcodeTest : (test ++ .act .right .done).code = nonzeroTest.fragment ++ [.act .right] := by
    rw [Block.code_append, htest]
    rfl
  have hlength : (test ++ .act .right .done).code.length = bracketIndex := by
    rw [hcodeTest, List.length_append, List.length_singleton, bracketIndex]
  have hend := offset_command hop
  have hstands := stands_command hop
  have hsplit : nonzeroTest.fragment ++ .act .right :: rest =
      (test ++ .act .right .done).code ++ rest := by
    rw [hcodeTest, List.append_assoc]
    rfl
  rw [hfragment, hsplit, ← hcode] at hstands
  rw [hfragment, hsplit, List.length_append, hlength] at hend
  have hpos : 0 < rest.length := List.length_pos_iff.2 hrest
  have hpasses : (unlimited program trace).Passes _ cost
      ⟨store, offset (source.map command) place, steps, none⟩ _ :=
    passes_of_evaluates heval hstands.append.1
  rw [hlength] at hpasses
  refine ⟨cost, store', hlowest, hband, hpasses.mono fun position hposition => ?_⟩
  exact not_isLast place hposition.1 (by have := hposition.2; omega)

/-- A store at the bracket of a loop, one cell right of the first flag of the active chain. -/
def Awaits (store : Store) (s : Chains) : Prop :=
  store.lowest ≤ store.tape.pointer ∧ store.band = (testedBand s).perform .right

theorem Awaits.nonzero (h : Awaits store s) : store.nonzero = !s.active.isZero := by
  have hhead : store.nonzero = ((if s.active.isZero then 0 else 1 : UInt8) != 0) :=
    Store.band_bisimulation.nonzero h
  rw [hhead]
  cases s.active.isZero <;> rfl

theorem Awaits.shows_left (h : Awaits store s) (hzero : s.active.isZero = true) :
    (store.perform .left).Shows s := by
  obtain ⟨hlowest, hband⟩ := Store.band_bisimulation.perform .left h
  rw [testedBand, if_pos hzero] at hband
  exact ⟨hlowest, hband⟩

theorem Awaits.shows_dec_left (h : Awaits store s) (hzero : s.active.isZero = false) :
    ((store.perform .dec).perform .left).Shows s := by
  obtain ⟨hlowest, hband⟩ :=
    Store.band_bisimulation.perform .left (Store.band_bisimulation.perform .dec h)
  have hdec :
      ((scratchBand s 1).perform .right).perform .dec = (scratchBand s 0).perform .right := by
    have hone : (1 : UInt8) - 1 = 0 := rfl
    simp only [scratchBand, Band.perform, Stream'.head_cons, Stream'.tail_cons, hone]
  rw [testedBand, if_neg (Bool.eq_false_iff.1 hzero)] at hband
  exact ⟨hlowest, hband.trans (congrArg (Band.perform .left) hdec)⟩

theorem stands_loop_commands (h : Code.Stands (Block.loop body .done).code source place) :
    source[place]? = some .loopBegin ∧ source[place + 1 + body.code.length]? = some .loopEnd := by
  obtain ⟨hbegin, hinner⟩ := h.cons
  exact ⟨hbegin, hinner.append.2.cons.1⟩

/-- From the bracket of a loop that goes on to the end of the command that opened it. -/
theorem completes_enter (hcode : program.code = compile (source.map command))
    (h : Code.Stands (Block.loop body .done).code source place) (hawaits : Awaits store s)
    (hzero : s.active.isZero = false) :
    ∃ store' steps', store'.Shows s ∧
      (unlimited program trace).Completes (lastPositions source)
        ⟨store, bracketPosition (source.map command) place, steps, none⟩
        ⟨store', offset (source.map command) (place + 1), steps', none⟩ := by
  have hbegin := (stands_loop_commands h).1
  obtain ⟨hplace, -⟩ := List.getElem?_eq_some_iff.1 hbegin
  obtain ⟨hbracket, hdec, hleft, hend⟩ := stands_loopBegin hbegin
  have hle := offset_le_bracketPosition (source.map command) place
  rw [← hcode] at hbracket hdec hleft
  have hnonzero : store.nonzero = true := by
    rw [hawaits.nonzero, hzero]
    rfl
  have hpasses : (unlimited program trace).Passes (lastPositions source)ᶜ 2
      ⟨store, bracketPosition (source.map command) place, steps, none⟩
      ⟨store.perform .dec, bracketPosition (source.map command) place + 2,
        steps + 2, none⟩ := by
    refine .head (step_enter hbracket hnonzero) ?_ (.head (step_act hdec) ?_ (.refl _ _)) <;>
      refine not_isLast place ?_ ?_ <;> simp only <;> omega
  exact ⟨_, _, hawaits.shows_dec_left hzero,
    hpasses.completes (completes_last hplace hleft hend.symm)⟩

/-- From the bracket of a loop that ends to the end of the command that closed it. -/
theorem completes_leave (hcode : program.code = compile (source.map command))
    (h : Code.Stands (Block.loop body .done).code source place) (hawaits : Awaits store s)
    (hzero : s.active.isZero = true) :
    ∃ store' steps', store'.Shows s ∧
      (unlimited program trace).Completes (lastPositions source)
        ⟨store, bracketPosition (source.map command) place, steps, none⟩
        ⟨store', offset (source.map command) (place + 1 + body.code.length + 1), steps', none⟩ := by
  obtain ⟨hbegin, hclose⟩ := stands_loop_commands h
  obtain ⟨hplace, -⟩ := List.getElem?_eq_some_iff.1 hclose
  obtain ⟨hbracket, -, -, hendBegin⟩ := stands_loopBegin hbegin
  obtain ⟨-, hleft, hend⟩ := stands_loopEnd hclose
  have hle := offset_le_bracketPosition (source.map command) place
  rw [← hcode] at hbracket hleft
  have hnonzero : store.nonzero = false := by
    rw [hawaits.nonzero, hzero]
    rfl
  have hstep : (unlimited program trace).step
      ⟨store, bracketPosition (source.map command) place, steps, none⟩ =
      ⟨store, bracketPosition (source.map command) (place + 1 + body.code.length) + 1, steps + 1,
        none⟩ := by
    rw [step_skip hbracket hnonzero, (partner_compiled_loop hcode h).1]
  have hpasses : (unlimited program trace).Passes (lastPositions source)ᶜ 1
      ⟨store, bracketPosition (source.map command) place, steps, none⟩ _ :=
    .head hstep (not_isLast place hle (by simp only; omega)) (.refl _ _)
  exact ⟨_, _, hawaits.shows_left hzero,
    hpasses.completes (completes_last hplace hleft hend.symm)⟩

/-- From the start of either command of a loop to the bracket that opens it. -/
theorem passes_bracket (hcode : program.code = compile (source.map command))
    (h : Code.Stands (Block.loop body .done).code source place)
    {here : Nat} (hhere : here = place ∨ here = place + 1 + body.code.length)
    (hshows : store.Shows s) :
    ∃ count store' steps', Awaits store' s ∧
      (unlimited program trace).Passes (lastPositions source)ᶜ count
        ⟨store, offset (source.map command) here, steps, none⟩
        ⟨store', bracketPosition (source.map command) place, steps',
          none⟩ := by
  obtain ⟨hbegin, hclose⟩ := stands_loop_commands h
  rcases hhere with rfl | rfl
  · obtain ⟨count, store', hlowest, hband, hpasses⟩ :=
      passes_test hcode hbegin fragment_loopBegin (List.cons_ne_nil _ _) hshows
    exact ⟨count, store', _, ⟨hlowest, hband⟩, hpasses⟩
  · obtain ⟨count, store', hlowest, hband, hpasses⟩ :=
      passes_test hcode hclose fragment_loopEnd (List.cons_ne_nil _ _) hshows
    obtain ⟨hbracket, -, hend⟩ := stands_loopEnd hclose
    rw [← hcode] at hbracket
    have hstep : (unlimited program trace).step ⟨store', _, steps + count, none⟩ = _ :=
      step_back hbracket
    rw [(partner_compiled_loop hcode h).2] at hstep
    refine ⟨_, store', _, ⟨hlowest, hband⟩, hpasses.trans (.head hstep ?_ (.refl _ _))⟩
    exact not_isLast (place + 1 + body.code.length) (offset_le_bracketPosition ..)
      (by simp only; omega)

/-! ### Single steps of the source -/

/-- What is left to do of a source when its command number `place` comes next. -/
inductive Ahead (source : Code) : Nat → Block → Prop where
  | finish : Ahead source source.length .done
  | act {place : Nat} {action : Action} {rest : Block} (hop : source[place]? = some (.act action))
      (tail : Ahead source (place + 1) rest) : Ahead source place (.act action rest)
  /-- At the opening command of a loop or at the closing one. -/
  | loop {place here : Nat} {body rest : Block}
      (hstands : Code.Stands (Block.loop body .done).code source place)
      (hhere : here = place ∨ here = place + 1 + body.code.length)
      (tail : Ahead source (place + 1 + body.code.length + 1) rest) :
      Ahead source here (.loop body rest)

theorem Ahead.append {block rest : Block} (hstands : Code.Stands block.code source place)
    (h : Ahead source (place + block.code.length) rest) : Ahead source place (block ++ rest) := by
  induction block generalizing place rest with
  | done => exact h
  | act action tail ih =>
    obtain ⟨hop, htail⟩ := hstands.cons
    refine .act hop (ih htail ?_)
    rwa [Nat.add_right_comm]
  | loop inner tail _ ih =>
    have hsplit : (Block.loop inner tail).code = (Block.loop inner .done).code ++ tail.code := by
      simp [Block.code]
    have hlength : (Block.loop inner .done).code.length = inner.code.length + 2 := by
      simp [Block.code]
    rw [hsplit] at hstands h
    obtain ⟨hloop, htail⟩ := hstands.append
    rw [List.length_append, hlength] at h
    rw [hlength] at htail
    have hplace : place + (inner.code.length + 2) = place + 1 + inner.code.length + 1 := by omega
    rw [hplace] at htail
    refine .loop hloop (.inl rfl) (ih htail ?_)
    rwa [← hplace, Nat.add_assoc]

theorem Ahead.of_code {block : Block} (h : block.code = source) : Ahead source 0 block := by
  have hstands : Code.Stands block.code source 0 := by
    rw [h]
    exact List.prefix_refl _
  have hfinish : Ahead source (0 + block.code.length) .done := by
    rw [h, Nat.zero_add]
    exact .finish
  have hahead := Ahead.append hstands hfinish
  rwa [Block.append_done] at hahead

theorem exists_completes_of_next? (hcode : program.code = compile (source.map command))
    {block block' : Block} {s' : Chains} (hahead : Ahead source place block)
    (hnext : Block.next? Chains.device (block, s) = some (block', s')) (hshows : store.Shows s) :
    ∃ place' store' steps', Ahead source place' block' ∧ store'.Shows s' ∧
      (unlimited program trace).Completes (lastPositions source)
        ⟨store, offset (source.map command) place, steps, none⟩
        ⟨store', offset (source.map command) place', steps', none⟩ := by
  cases hahead with
  | finish => cases hnext
  | act hop tail =>
    cases hnext
    obtain ⟨store', steps', hshows', hcompletes⟩ := completes_act hcode hop hshows
    exact ⟨_, store', steps', tail, hshows', hcompletes⟩
  | @loop start _ body rest hstands hhere tail =>
    -- Both brackets of the loop lead to the opening one, which tests and decides.
    obtain ⟨count, u, steps', hawaits, hpasses⟩ := passes_bracket hcode hstands hhere hshows
    rw [Block.next?_loop] at hnext
    cases hzero : s.active.isZero with
    | false =>
      have hgoes : Chains.device.nonzero s = true := by simp [Chains.device, hzero]
      rw [if_pos hgoes] at hnext
      cases hnext
      obtain ⟨store', steps'', hshows', hcompletes⟩ := completes_enter hcode hstands hawaits hzero
      refine ⟨start + 1, store', steps'', ?_, hshows', hpasses.completes hcompletes⟩
      exact .append hstands.cons.2.append.1 (.loop hstands (.inr rfl) tail)
    | true =>
      have hends : ¬Chains.device.nonzero s = true := by simp [Chains.device, hzero]
      rw [if_neg hends] at hnext
      cases hnext
      obtain ⟨store', steps'', hshows', hcompletes⟩ := completes_leave hcode hstands hawaits hzero
      exact ⟨_, store', steps'', tail, hshows', hpasses.completes hcompletes⟩

end Machine

end ByteTape
