import ByteTape.Proofs.Compiler

/-!
# The left margin

The pointer of an assembled program goes as far left as the leftmost numeral asks for: three cells
beyond its start. The preamble leaves these three cells, so the pointer stays at index 0 or above
until a command `<` on the leftmost numeral makes another one, six cells further left. `extensions`
counts these commands along a run, and the margin is exact in their number: `left_margin_is_exact`.

The count is taken twice, along the run and along the steps of the source, and both agree since a
command begins where another one has ended.
-/

namespace ByteTape

open Operation

namespace Chains

/-- The next command makes a chain on the left. -/
def extendsLeft : Block × Chains → Bool
  | (.act .left _, s) => s.before.isEmpty
  | _ => false

/-- How many chains were made on the left in the first `count` steps of a block. -/
def extensions (block : Block) (input : List UInt8) (count : Nat) : Nat :=
  Nat.count (fun i => extendsLeft (stage block input i) = true) count

theorem extendsLeft_iff {current : Block × Chains} :
    extendsLeft current = true ↔
      (∃ rest, current.1 = .act .left rest) ∧ current.2.before = [] := by
  obtain ⟨block, s⟩ := current
  cases block with
  | done | loop => simp [extendsLeft]
  | act action rest => cases action <;> simp [extendsLeft]

theorem origin_perform (action : Action) (rest : Block) (s : Chains) :
    (s.perform action).origin =
      s.origin - if extendsLeft (.act action rest, s) = true then 6 else 0 := by
  obtain ⟨before, active, after, origin, console⟩ := s
  cases action with
  | inc | dec | read | write => exact (Int.sub_zero _).symm
  | right => cases after <;> exact (Int.sub_zero _).symm
  | left =>
    cases before with
    | nil => rfl
    | cons previous before => exact (Int.sub_zero _).symm

theorem origin_advance_one (current : Block × Chains) :
    (Block.advance device 1 current).2.origin =
      current.2.origin - if extendsLeft current = true then 6 else 0 := by
  obtain ⟨block, s⟩ := current
  cases block with
  | done => exact (Int.sub_zero _).symm
  | act action rest => exact origin_perform action rest s
  | loop body rest =>
    have hkeeps : (Block.advance device 1 (Block.loop body rest, s)).2 = s := by
      rw [Block.advance, Block.next?_loop]
      cases device.nonzero s <;> rfl
    rw [hkeeps]
    exact (Int.sub_zero _).symm

theorem origin_stage (block : Block) (input : List UInt8) (count : Nat) :
    (stage block input count).2.origin = 3 - 6 * extensions block input count := by
  induction count with
  | zero => rfl
  | succ count ih =>
    have hstage :
        stage block input (count + 1) = Block.advance device 1 (stage block input count) := by
      rw [stage, Block.advance_add]
      rfl
    have hcount : extensions block input (count + 1) = extensions block input count +
        if extendsLeft (stage block input count) = true then 1 else 0 := Nat.count_succ ..
    rw [hstage, origin_advance_one, ih, hcount]
    split <;> push_cast <;> omega

end Chains

/-- The pointer is on the leftmost numeral. -/
def Tape.onLeftmost (tape : Tape) : Bool :=
  match tape.layout with
  | .ok layout => layout.active == 0
  | .error _ => false

theorem Store.Shows.onLeftmost_iff {store : Store} {s : Chains} (h : store.Shows s) :
    store.tape.onLeftmost = true ↔ s.before = [] := by
  obtain ⟨layout, hlayout, -, hactive⟩ := h.exists_layout
  rw [Tape.onLeftmost, hlayout]
  simp only [hactive, beq_iff_eq, List.length_eq_zero_iff]

theorem Store.Shows.lowest_eq {store : Store} {block : Block} {input : List UInt8} {count : Nat}
    (h : store.Shows (Chains.stage block input count).2) :
    store.lowest = -6 * Chains.extensions block input count := by
  have hlowest : store.lowest = (Chains.stage block input count).2.origin - 3 :=
    congrArg Band.lowest h.2
  rw [hlowest, Chains.origin_stage]
  omega

namespace Machine

/-- Whether the next step executes an opcode. -/
def executes (machine : Machine) (s : State) : Bool :=
  match machine.move s with
  | .execute _ => true
  | .halt _ => false
  | .rest => false

/-- The next step is the first one of a command `<` on the leftmost numeral. -/
def ExtendsLeft (machine : Machine) (operations : List Operation) (s : State) : Prop :=
  machine.executes s = true ∧ s.store.tape.onLeftmost = true ∧
    ∃ place < operations.length, operations[place]? = some (command (.act .left)) ∧
      s.position = offset operations place

instance (machine : Machine) (operations : List Operation) (s : State) :
    Decidable (machine.ExtendsLeft operations s) :=
  inferInstanceAs (Decidable (_ ∧ _ ∧ ∃ place < operations.length,
    operations[place]? = some (command (.act .left)) ∧ s.position = offset operations place))

/-- How many numerals were made on the left in the first `count` steps from `s`. -/
def extensions (machine : Machine) (operations : List Operation) (s : State) (count : Nat) : Nat :=
  Nat.count (fun i => machine.ExtendsLeft operations (machine.step^[i] s)) count

theorem not_executes_of_halted {machine : Machine} {s : State} (h : s.halt?.isSome) :
    machine.executes s = false := by
  obtain ⟨reason, hreason⟩ := Option.isSome_iff_exists.1 h
  rw [executes, move, hreason]

variable {program : Program} {trace : Bool} {source : Code} {block : Block} {input : List UInt8}

theorem executes_of_opcode {s : State} {op : Opcode} (hhalt : s.halt? = none)
    (hop : program.code[s.position]? = some op) : (unlimited program trace).executes s = true := by
  rw [← Program.opcode?_eq] at hop
  simp only [executes, move, unlimited, hhalt, hop]
  rfl

/-! ### Where commands begin -/

/-- A command that starts with an action is not begun by a jump, since a jump ends behind a closing
bracket or on an opening one. -/
theorem isLast_of_begins (hcode : program.code = compile (source.map command)) {s : State}
    {place : Nat} {action : Action} (hplace : place < source.length)
    (hexecutes : (unlimited program trace).executes ((unlimited program trace).step s) = true)
    (hop : program.code[offset (source.map command) place]? = some (.act action))
    (h : ((unlimited program trace).step s).position = offset (source.map command) place) :
    IsLast (source.map command) s.position := by
  obtain ⟨hhalt, hstep⟩ | ⟨reason, hstep⟩ | ⟨op, hopcode, hstep⟩ :=
    (unlimited program trace).step_cases s
  · rw [hstep, not_executes_of_halted hhalt] at hexecutes
    cases hexecutes
  · rw [hstep, not_executes_of_halted rfl] at hexecutes
    cases hexecutes
  · rw [hstep] at h
    change program.code[s.position]? = some op at hopcode
    cases op with
    | act action => exact isLast_of_offset hplace.le h
    | loopBegin =>
      rw [execute] at h
      split at h
      · exact isLast_of_offset hplace.le h
      · obtain ⟨last, hlast⟩ := exists_act_of_isLast (isLast_of_offset hplace.le h)
        rw [← hcode] at hlast
        have hclosing := Program.getElem?_partner_loopBegin hopcode
        cases hclosing.symm.trans hlast
    | loopEnd =>
      have hpartner : program.partner s.position = offset (source.map command) place := h
      have hopening := Program.getElem?_partner_loopEnd hopcode
      rw [hpartner, hop] at hopening
      cases hopening

theorem getElem?_offset_left (hcode : program.code = compile (source.map command)) {place : Nat}
    (h : source[place]? = some (.act .left)) :
    program.code[offset (source.map command) place]? = some (.act .left) := by
  obtain ⟨rest, hrest⟩ : ∃ rest, (command (.act .left)).fragment = .act .left :: rest := ⟨_, rfl⟩
  have hstands := stands_command h
  rw [hrest, ← hcode] at hstands
  exact hstands.cons.1

theorem getElem?_map_left_iff {place : Nat} :
    (source.map command)[place]? = some (command (.act .left)) ↔
      source[place]? = some (.act .left) := by
  simp [List.getElem?_map]

theorem Ahead.le_length {place : Nat} (h : Ahead source place block) : place ≤ source.length := by
  cases h with
  | finish => exact Nat.le_refl _
  | act hop tail => exact (List.getElem?_eq_some_iff.1 hop).1.le
  | loop hstands hhere tail =>
    obtain ⟨hbegin, hclose⟩ := stands_loop_commands hstands
    rcases hhere with rfl | rfl
    · exact (List.getElem?_eq_some_iff.1 hbegin).1.le
    · exact (List.getElem?_eq_some_iff.1 hclose).1.le

/-- The command that comes next at `place`, if it is one that performs an action. -/
theorem Ahead.exists_act_iff {place : Nat} (h : Ahead source place block) {action : Action} :
    source[place]? = some (.act action) ↔ ∃ rest, block = .act action rest := by
  cases h with
  | finish => simp
  | act hop tail => simp [hop]
  | loop hstands hhere tail =>
    obtain ⟨hbegin, hclose⟩ := stands_loop_commands hstands
    rcases hhere with rfl | rfl
    · simp [hbegin]
    · simp [hclose]

/-! ### Counting along the run and along the source -/

theorem extendsLeft_succ_iff (hcode : program.code = compile (source.map command))
    (hblock : block.code = source) (trace : Bool) (input : List UInt8) (time : Nat) :
    (unlimited program trace).ExtendsLeft (source.map command)
        ((unlimited program trace).step^[time + 1] (.start .empty input)) ↔
      IsLast (source.map command)
          ((unlimited program trace).step^[time] (.start .empty input)).position ∧
        Chains.extendsLeft (Chains.stage block input
          ((unlimited program trace).ended (source.map command) (.start .empty input) time)) =
            true := by
  constructor
  · rintro ⟨hexecutes, hleftmost, place, hplace, hop, hposition⟩
    rw [List.length_map] at hplace
    rw [getElem?_map_left_iff] at hop
    have hlast : IsLast (source.map command)
        ((unlimited program trace).step^[time] (.start .empty input)).position := by
      rw [Function.iterate_succ_apply'] at hexecutes hposition
      exact isLast_of_begins hcode hplace hexecutes (getElem?_offset_left hcode hop) hposition
    obtain ⟨-, -, place', store, steps, harrives, hahead, hshows⟩ :=
      ends_of_isLast hcode hblock hlast
    rw [harrives] at hposition hleftmost
    obtain rfl : place' = place := offset_inj hahead.le_length hplace.le hposition
    exact ⟨hlast, Chains.extendsLeft_iff.2
      ⟨hahead.exists_act_iff.1 hop, hshows.onLeftmost_iff.1 hleftmost⟩⟩
  · rintro ⟨hlast, hextends⟩
    obtain ⟨hleft, hbefore⟩ := Chains.extendsLeft_iff.1 hextends
    obtain ⟨-, -, place, store, steps, harrives, hahead, hshows⟩ :=
      ends_of_isLast hcode hblock hlast
    have hop := hahead.exists_act_iff.2 hleft
    rw [harrives]
    refine ⟨executes_of_opcode rfl (getElem?_offset_left hcode hop),
      hshows.onLeftmost_iff.2 hbefore, place, ?_, getElem?_map_left_iff.2 hop, rfl⟩
    rw [List.length_map]
    exact (List.getElem?_eq_some_iff.1 hop).1

theorem not_extendsLeft_start (machine : Machine) (source : Code) (input : List UInt8) :
    ¬machine.ExtendsLeft (source.map command) (.start .empty input) := by
  rintro ⟨-, -, place, -, -, hposition⟩
  have hpreamble : 0 < preamble.fragment.length := by decide +kernel
  rw [← offset_zero (source.map command)] at hpreamble
  have hle : offset (source.map command) 0 ≤ offset (source.map command) place :=
    offset_le_offset (Nat.zero_le place)
  have hstart : (State.start .empty input).position = 0 := rfl
  omega

theorem extensions_add_one (machine : Machine) (operations : List Operation) (s : State)
    (count : Nat) :
    machine.extensions operations s (count + 1) = machine.extensions operations s count +
      if machine.ExtendsLeft operations (machine.step^[count] s) then 1 else 0 :=
  Nat.count_succ ..

/-- The commands `<` begun before a step are those of the source steps begun before it. -/
theorem extensions_succ (hcode : program.code = compile (source.map command))
    (hblock : block.code = source) (trace : Bool) (input : List UInt8) (time : Nat) :
    (unlimited program trace).extensions (source.map command) (.start .empty input) (time + 1) =
      Chains.extensions block input
        ((unlimited program trace).ended (source.map command) (.start .empty input) time) := by
  induction time with
  | zero =>
    rw [extensions_add_one, Function.iterate_zero_apply,
      if_neg (not_extendsLeft_start (unlimited program trace) source input)]
    rfl
  | succ time ih =>
    have hiff := extendsLeft_succ_iff hcode hblock trace input time
    rw [extensions_add_one, ih]
    by_cases hlast : IsLast (source.map command)
        ((unlimited program trace).step^[time] (.start .empty input)).position
    · simp only [hiff, hlast, true_and]
      rw [ended_succ hlast]
      exact (Nat.count_succ ..).symm
    · rw [if_neg fun hextends => hlast (hiff.1 hextends).1, ended_succ_of_not hlast]
      rfl

/-! ### The lowest index -/

theorem extensions_le_lowest (hcode : program.code = compile (source.map command))
    (hblock : block.code = source) (trace : Bool) (input : List UInt8) (time : Nat) :
    -6 * ((unlimited program trace).extensions (source.map command) (.start .empty input) time :
        Int) ≤
      ((unlimited program trace).step^[time] (.start .empty input)).store.lowest := by
  cases time with
  | zero => exact Int.le_refl _
  | succ time =>
    obtain ⟨time', htime, hshows⟩ := exists_shows_ended hcode hblock trace input time
    rw [extensions_succ hcode hblock, ← hshows.lowest_eq]
    exact lowest_iterate_le (unlimited program trace) .empty input htime

/-- The state of a run from a blank tape that has completed: the numerals start where those that
were made on the left leave them, and the pointer has been at the last of the cells before them. -/
def State.FillsMargin (s : State) (created : Nat) : Prop :=
  s.store.lowest = -6 * created ∧
    ∃ (layout : Layout) (first : Numeral) (others : List Numeral),
      s.store.tape.layout = .ok layout ∧ layout.numerals = first :: others ∧
        first.start = 3 - 6 * created

theorem fillsMargin_of_halted (hcode : program.code = compile (source.map command))
    (hblock : block.code = source) (trace : Bool) (input : List UInt8) {time : Nat}
    (h : ((unlimited program trace).step^[time] (.start .empty input)).halt?.isSome) :
    ((unlimited program trace).step^[time] (.start .empty input)).FillsMargin
      ((unlimited program trace).extensions (source.map command) (.start .empty input) time) := by
  cases time with
  | zero => cases h
  | succ time =>
    obtain ⟨time', htime, hshows⟩ := exists_shows_ended hcode hblock trace input time
    rw [iterate_step_eq_of_le htime h] at hshows
    rw [extensions_succ hcode hblock]
    obtain ⟨layout, hlayout, hnumerals, -⟩ := hshows.exists_layout
    obtain ⟨chain, rest, hrow⟩ : ∃ chain rest, (Chains.stage block input
        ((unlimited program trace).ended (source.map command) (.start .empty input) time)).2.row =
          chain :: rest :=
      List.exists_cons_of_ne_nil (by simp [Chains.row])
    rw [hrow, Chain.placed] at hnumerals
    exact ⟨hshows.lowest_eq, layout, _, _, hlayout, hnumerals, Chains.origin_stage ..⟩

/-! ### Runs with a step limit -/

theorem move_eq_or (program : Program) (config : Config) (s : State) :
    move ⟨program, config⟩ s = (unlimited program config.trace).move s ∨
      move ⟨program, config⟩ s = .halt .stepLimit := by
  cases hhalt : s.halt? with
  | some reason => exact .inl (by simp only [move, hhalt])
  | none =>
    cases hop : program.opcode? s.position with
    | none => exact .inl (by simp only [move, hhalt, hop, unlimited])
    | some op =>
      simp only [move, hhalt, hop, unlimited]
      by_cases hspent : config.spent s.steps = true
      · exact .inr (if_pos hspent)
      · exact .inl (if_neg hspent)

theorem not_extendsLeft_of_not_executes {machine : Machine} {operations : List Operation}
    {s : State}
    (h : machine.executes s = false) : ¬machine.ExtendsLeft operations s := by
  intro hextends
  exact Bool.false_ne_true (h.symm.trans hextends.1)

/-- A machine goes the way of one without a limit, unless its limit has stopped it on the way.
Either way it has begun the same commands. -/
theorem exists_unlimited_time (program : Program) (config : Config) (operations : List Operation)
    (s : State) (time : Nat) :
    ∃ time', extensions ⟨program, config⟩ operations s time =
        (unlimited program config.trace).extensions operations s time' ∧
      ((time' = time ∧ (step ⟨program, config⟩)^[time] s =
        (unlimited program config.trace).step^[time] s) ∨
      (step ⟨program, config⟩)^[time] s =
        ((unlimited program config.trace).step^[time'] s).halt .stepLimit) := by
  induction time with
  | zero => exact ⟨0, rfl, .inl ⟨rfl, rfl⟩⟩
  | succ time ih =>
    obtain ⟨time', hcount, hstate⟩ := ih
    rw [extensions_add_one, hcount, Function.iterate_succ_apply']
    rcases hstate with ⟨rfl, hsame⟩ | hstopped
    · rw [hsame]
      rcases move_eq_or program config ((unlimited program config.trace).step^[time'] s) with
        hmove | hmove
      · refine ⟨time' + 1, ?_, .inl ⟨rfl, ?_⟩⟩
        · have hiff : ExtendsLeft ⟨program, config⟩ operations
              ((unlimited program config.trace).step^[time'] s) ↔
              (unlimited program config.trace).ExtendsLeft operations
                ((unlimited program config.trace).step^[time'] s) := by
            rw [ExtendsLeft, ExtendsLeft, executes, executes, hmove]
          rw [extensions_add_one, if_congr hiff rfl rfl]
        · rw [Function.iterate_succ_apply', step, hmove]
          rfl
      · refine ⟨time', ?_, .inr ?_⟩
        · rw [if_neg (not_extendsLeft_of_not_executes (by rw [executes, hmove])), Nat.add_zero]
        · rw [step, hmove]
    · have hhalted : ((step ⟨program, config⟩)^[time] s).halt?.isSome := by
        rw [hstopped]
        rfl
      refine ⟨time', ?_, .inr ?_⟩
      · rw [if_neg (not_extendsLeft_of_not_executes (not_executes_of_halted hhalted)), Nat.add_zero]
      · rw [step_of_halted hhalted, hstopped]

theorem extensions_le_pointer (hcode : program.code = compile (source.map command))
    (hblock : block.code = source) (config : Config) (input : List UInt8) (time : Nat) :
    -6 * (extensions ⟨program, config⟩ (source.map command) (.start .empty input) time : Int) ≤
      ((step ⟨program, config⟩)^[time] (.start .empty input)).store.tape.pointer := by
  obtain ⟨time', hcreated, hstate⟩ :=
    exists_unlimited_time program config (source.map command) (.start .empty input) time
  have hlowest := extensions_le_lowest hcode hblock config.trace input time'
  have hpointer := lowest_le_pointer (unlimited program config.trace) .empty input time'
  rw [hcreated]
  rcases hstate with ⟨rfl, hsame⟩ | hstopped
  · rw [hsame]
    exact hlowest.trans hpointer
  · rw [hstopped]
    exact hlowest.trans hpointer

theorem fillsMargin_of_completed (hcode : program.code = compile (source.map command))
    (hblock : block.code = source) (config : Config) (input : List UInt8) (time : Nat)
    (h : ((step ⟨program, config⟩)^[time] (.start .empty input)).halt? = some .completed) :
    ((step ⟨program, config⟩)^[time] (.start .empty input)).FillsMargin
      (extensions ⟨program, config⟩ (source.map command) (.start .empty input) time) := by
  obtain ⟨time', hcreated, hstate⟩ :=
    exists_unlimited_time program config (source.map command) (.start .empty input) time
  rcases hstate with ⟨rfl, hsame⟩ | hstopped
  · rw [hcreated, hsame]
    rw [hsame] at h
    exact fillsMargin_of_halted hcode hblock config.trace input (by rw [h]; rfl)
  · rw [hstopped] at h
    cases h

end Machine

/-- **The left margin is exact.** Along every run of an assembled program from a blank tape,
whatever its limit, the pointer stays at index 0 or above until a command `<` is executed on the
leftmost numeral, and each of these lets it go six cells further. A run that completes has been that
far, and its leftmost numeral starts three cells from there. -/
theorem left_margin_is_exact :
    ∀ text assembly, assemble text = .ok assembly →
      ∀ (config : Config) (input : List UInt8) (time : Nat),
        let machine : Machine := ⟨assembly.program, config⟩
        let state := machine.step^[time] (.start .empty input)
        let created := machine.extensions assembly.operations (.start .empty input) time
        (state.halt? = some .completed → state.FillsMargin created) ∧
        -6 * (created : Int) ≤ state.store.tape.pointer ∧
        ((∀ i < time, ¬machine.ExtendsLeft assembly.operations
            (machine.step^[i] (.start .empty input))) → 0 ≤ state.store.tape.pointer) := by
  intro text assembly hassembly config input time machine state created
  obtain ⟨⟨block, hblock⟩, hoperations, hcode⟩ := assemble_eq_ok hassembly
  rw [hoperations] at hcode
  have hbound := Machine.extensions_le_pointer hcode hblock config input time
  have hfills := Machine.fillsMargin_of_completed hcode hblock config input time
  rw [← hoperations] at hbound hfills
  refine ⟨hfills, hbound, ?_⟩
  intro hnone
  have hzero : created = 0 := Nat.count_iff_forall_not.2 hnone
  calc (0 : Int) = -6 * (created : Int) := by rw [hzero]; rfl
    _ ≤ state.store.tape.pointer := hbound

/-- The program of a single `<` completes six cells left of where it started, with one numeral made
on the left. -/
theorem left_margin_of_left :
    ∃ assembly, assemble "<" = .ok assembly ∧ ∃ time,
      let machine : Machine := ⟨assembly.program, {}⟩
      let state := machine.step^[time] (.start .empty [])
      state.halt? = some .completed ∧
        machine.extensions assembly.operations (.start .empty []) time = 1 ∧
        state.FillsMargin 1 := by
  have hblock : (Block.act .left .done).code = Code.ofString "<" := by decide +kernel
  obtain ⟨assembly, hassembly⟩ := exists_assemble_iff.2 ⟨_, hblock⟩
  obtain ⟨-, hoperations, hcode⟩ := assemble_eq_ok hassembly
  rw [hoperations] at hcode
  have hdone : (Chains.stage (.act .left .done) [] 1).1 = .done := rfl
  obtain ⟨final, hhalts⟩ :
      ∃ final, (Machine.unlimited assembly.program false).Halts (.start .empty []) final :=
    (Machine.exists_halts_iff hcode hblock).2 ⟨1, hdone⟩
  obtain ⟨hcompleted, hshows⟩ := hhalts.shows hcode hblock hdone
  obtain ⟨⟨time, rfl⟩, -⟩ := Machine.halts_iff.1 hhalts
  have hfills := (left_margin_is_exact "<" assembly hassembly {} [] time).1 hcompleted
  have hcreated : Machine.extensions ⟨assembly.program, {}⟩ assembly.operations (.start .empty [])
      time = 1 := by
    have hlowest := hshows.lowest_eq.symm.trans hfills.1
    have hone : Chains.extensions (.act .left .done) [] 1 = 1 := by decide +kernel
    rw [hone] at hlowest
    omega
  refine ⟨assembly, hassembly, time, hcompleted, hcreated, ?_⟩
  rw [hcreated] at hfills
  exact hfills

end ByteTape
