import ByteTape.Code
import ByteTape.Machine.Store

/-!
# Blocks

Code whose brackets match, read as a tree: a block is a row of actions and loops, and a loop has a
block for its body. Blocks say what loops mean without positions or jumps. They run on any device, that
is on anything that can perform the six actions and be asked whether a loop goes on.

`Evaluates` is the meaning of a block that comes to its end, with the number of opcodes passed on the
way. `next?` goes by single steps and so also follows a block that runs for ever.
-/

namespace ByteTape

inductive Block where
  | done
  | act (action : Action) (rest : Block)
  | loop (body rest : Block)
  deriving DecidableEq, Repr

/-- What a block acts on. -/
structure Device (σ : Type) where
  perform : Action → σ → σ
  nonzero : σ → Bool

def Store.device [IndexSpace] : Device Store := ⟨Store.perform, Store.nonzero⟩

namespace Block

/-- The opcodes of a block. -/
def code : Block → Code
  | .done => []
  | .act action rest => .act action :: rest.code
  | .loop body rest => .loopBegin :: (body.code ++ .loopEnd :: rest.code)

def append : Block → Block → Block
  | .done, tail => tail
  | .act action rest, tail => .act action (rest.append tail)
  | .loop body rest, tail => .loop body (rest.append tail)

instance : Append Block := ⟨append⟩

variable {σ : Type}

/-- `Evaluates device block s cost t`: from `s` the block ends in `t` after `cost` opcodes. A loop
passes its opening bracket once more than its closing one. -/
inductive Evaluates (device : Device σ) : Block → σ → Nat → σ → Prop where
  | done {s : σ} : Evaluates device .done s 0 s
  | act {action : Action} {rest : Block} {s t : σ} {cost : Nat}
      (tail : Evaluates device rest (device.perform action s) cost t) :
      Evaluates device (.act action rest) s (cost + 1) t
  | leave {body rest : Block} {s t : σ} {cost : Nat} (hzero : device.nonzero s = false)
      (tail : Evaluates device rest s cost t) :
      Evaluates device (.loop body rest) s (cost + 1) t
  | again {body rest : Block} {s u t : σ} {cost more : Nat} (hnonzero : device.nonzero s = true)
      (round : Evaluates device body s cost u) (tail : Evaluates device (.loop body rest) u more t) :
      Evaluates device (.loop body rest) s (cost + more + 2) t

/-- The next action or test of a block, and what is left to do after it. -/
def next? (device : Device σ) : Block × σ → Option (Block × σ)
  | (.done, _) => none
  | (.act action rest, s) => some (rest, device.perform action s)
  | (.loop body rest, s) =>
    if device.nonzero s then some (body ++ .loop body rest, s) else some (rest, s)

/-- Where a block stands after at most `count` steps. -/
def advance (device : Device σ) : Nat → Block × σ → Block × σ
  | 0, stage => stage
  | count + 1, stage =>
    match next? device stage with
    | some stage => advance device count stage
    | none => stage

@[simp]
theorem code_append (a b : Block) : (a ++ b).code = a.code ++ b.code := by
  change (a.append b).code = _
  induction a with
  | done => rfl
  | act action rest ih => simp [append, code, ih]
  | loop body rest _ ih => simp [append, code, ih]

/-- A device leaves no choice: a block that ends does so in one way. -/
theorem Evaluates.unique {device : Device σ} {block : Block} {s t u : σ} {cost more : Nat}
    (h : Evaluates device block s cost t) (h' : Evaluates device block s more u) :
    cost = more ∧ t = u := by
  induction h generalizing more u with
  | done =>
    cases h'
    exact ⟨rfl, rfl⟩
  | act tail ih =>
    cases h' with
    | act tail' =>
      obtain ⟨rfl, rfl⟩ := ih tail'
      exact ⟨rfl, rfl⟩
  | leave hzero tail ih =>
    cases h' with
    | leave _ tail' =>
      obtain ⟨rfl, rfl⟩ := ih tail'
      exact ⟨rfl, rfl⟩
    | again hnonzero _ _ =>
      rw [hzero] at hnonzero
      cases hnonzero
  | again hnonzero round tail ihround ihtail =>
    cases h' with
    | leave hzero _ =>
      rw [hnonzero] at hzero
      cases hzero
    | again _ round' tail' =>
      obtain ⟨rfl, rfl⟩ := ihround round'
      obtain ⟨rfl, rfl⟩ := ihtail tail'
      exact ⟨rfl, rfl⟩

end Block

end ByteTape
