import ByteTape.Proofs.Band
import ByteTape.Proofs.NormalForm

/-!
# Minification keeps what code does

A minified code is that of a block again, and the block does the same in no more steps and without
going further left (`Block.exists_minify`). One cancelled pair at a time: a pair of inverse actions
stands next to each other in some body, and whatever surrounds it goes along with its removal.
-/

namespace ByteTape

namespace Band

/-- The same cells under the same pointer, for a band that has not been further left. -/
structure Above (s t : Band) : Prop where
  behind : t.behind = s.behind
  ahead : t.ahead = s.ahead
  pointer : t.lowest + t.margin = s.lowest + s.margin
  lowest : s.lowest ≤ t.lowest
  console : t.console = s.console

theorem Above.refl (s : Band) : Above s s := ⟨rfl, rfl, rfl, Int.le_refl _, rfl⟩

theorem Above.trans {s t u : Band} (h : Above s t) (h' : Above t u) : Above s u :=
  ⟨h'.behind.trans h.behind, h'.ahead.trans h.ahead, h'.pointer.trans h.pointer,
    h.lowest.trans h'.lowest, h'.console.trans h.console⟩

/-- A band that is as far left as another one above it is that other one. -/
theorem Above.eq_of_le {s t : Band} (h : Above s t) (hle : t.lowest ≤ s.lowest) : t = s := by
  have hlowest : t.lowest = s.lowest := Int.le_antisymm hle h.lowest
  have hpointer := h.pointer
  exact Band.ext h.behind h.ahead hlowest (by omega) h.console

theorem Above.perform {s t : Band} (h : Above s t) (action : Action) :
    Above (s.perform action) (t.perform action) := by
  obtain ⟨behind, ahead, lowest, margin, console⟩ := s
  obtain ⟨behind', ahead', lowest', margin', console'⟩ := t
  obtain ⟨hbehind, hahead, hpointer, hlowest, hconsole⟩ := h
  simp only at hbehind hahead hpointer hlowest hconsole
  subst hbehind hahead hconsole
  cases action with
  | inc | dec | read | write => exact ⟨rfl, rfl, hpointer, hlowest, rfl⟩
  | right =>
    refine ⟨rfl, rfl, ?_, hlowest, rfl⟩
    simp only [Band.perform]
    omega
  | left =>
    cases margin <;> cases margin' <;>
      refine ⟨rfl, rfl, ?_, ?_, rfl⟩ <;> simp only [Band.perform] <;>
      omega

theorem above_bisimulation : device.Bisimulation device Above where
  perform action hst := hst.perform action
  nonzero hst := by
    simp only [device, hst.ahead]

theorem above_inverse {action undo : Action} (h : action.inverse? = some undo) (s : Band) :
    Above ((s.perform action).perform undo) s := by
  obtain ⟨behind, ahead, lowest, margin, console⟩ := s
  cases action with
  | inc | dec =>
    cases h
    refine ⟨rfl, ?_, rfl, Int.le_refl _, rfl⟩
    simp only [Band.perform, Stream'.head_cons, Stream'.tail_cons, UInt8.add_sub_cancel,
      UInt8.sub_add_cancel, Stream'.eta]
  | right =>
    cases h
    exact ⟨rfl, (Stream'.eta ahead).symm, rfl, Int.le_refl _, rfl⟩
  | left =>
    cases h
    cases margin with
    | zero =>
      refine ⟨(Stream'.eta behind).symm, rfl, ?_, ?_, rfl⟩ <;> simp only [Band.perform] <;> omega
    | succ margin => exact ⟨(Stream'.eta behind).symm, rfl, rfl, Int.le_refl _, rfl⟩
  | read | write => cases h

end Band

namespace Block

open Band (Above)

/-- `b` can stand for `a`: it ends whenever `a` does, with the same cells, in no more steps and not
further left. -/
structure Simplifies (a b : Block) : Prop where
  forward : ∀ {s t s' : Band} {cost : Nat}, Above s s' → Evaluates Band.device a s cost t →
    ∃ cost' t', cost' ≤ cost ∧ Evaluates Band.device b s' cost' t' ∧ Above t t'
  backward : ∀ {s s' t' : Band} {cost' : Nat}, Above s s' → Evaluates Band.device b s' cost' t' →
    ∃ cost t, Evaluates Band.device a s cost t

namespace Simplifies

theorem refl (a : Block) : Simplifies a a where
  forward hs h := by
    obtain ⟨t', ht', hbelow⟩ := h.transport Band.above_bisimulation hs
    exact ⟨_, t', Nat.le_refl _, ht', hbelow⟩
  backward hs h := by
    obtain ⟨t, ht, -⟩ := h.transport Band.above_bisimulation.symm hs
    exact ⟨_, t, ht⟩

theorem trans {a b c : Block} (h : Simplifies a b) (h' : Simplifies b c) : Simplifies a c where
  forward hs heval := by
    obtain ⟨cost', u, hcost, hu, hbelow⟩ := h.forward hs heval
    obtain ⟨cost'', v, hcost', hv, hbelow'⟩ := h'.forward (Above.refl _) hu
    exact ⟨cost'', v, hcost'.trans hcost, hv, hbelow.trans hbelow'⟩
  backward hs heval := by
    obtain ⟨cost', u, hu⟩ := h'.backward (Above.refl _) heval
    exact h.backward hs hu

/-- What is known of an evaluation of `b` once `a` is known to end. -/
theorem above {a b : Block} (h : Simplifies a b) {s s' t t' : Band} {cost cost' : Nat}
    (hs : Above s s') (hevala : Evaluates Band.device a s cost t)
    (hevalb : Evaluates Band.device b s' cost' t') : Above t t' := by
  obtain ⟨_, u, -, hu, hbelow⟩ := h.forward hs hevala
  obtain ⟨-, rfl⟩ := hu.unique hevalb
  exact hbelow

theorem act {a b : Block} (h : Simplifies a b) (action : Action) :
    Simplifies (.act action a) (.act action b) where
  forward hs heval := by
    cases heval with
    | act tail =>
      obtain ⟨cost', t', hcost, ht', hbelow⟩ := h.forward (hs.perform action) tail
      exact ⟨cost' + 1, t', Nat.succ_le_succ hcost, .act ht', hbelow⟩
  backward hs heval := by
    cases heval with
    | act tail =>
      obtain ⟨cost, t, ht⟩ := h.backward (hs.perform action) tail
      exact ⟨cost + 1, t, .act ht⟩

theorem loop {body body' rest rest' : Block} (hbody : Simplifies body body')
    (hrest : Simplifies rest rest') : Simplifies (.loop body rest) (.loop body' rest') where
  forward {s t s' cost} hs heval := by
    generalize hblock : Block.loop body rest = block at heval
    induction heval generalizing s' with
    | done | act => cases hblock
    | leave hzero tail =>
      cases hblock
      obtain ⟨cost', t', hcost, ht', hbelow⟩ := hrest.forward hs tail
      have hzero' := (Band.above_bisimulation.nonzero hs).symm.trans hzero
      exact ⟨cost' + 1, t', Nat.succ_le_succ hcost, .leave hzero' ht', hbelow⟩
    | again hnonzero round tail _ ih =>
      cases hblock
      obtain ⟨cost', u', hcost, hu', hu⟩ := hbody.forward hs round
      obtain ⟨more', t', hmore, ht', hbelow⟩ := ih hu rfl
      have hnonzero' := (Band.above_bisimulation.nonzero hs).symm.trans hnonzero
      exact ⟨cost' + more' + 2, t', by omega, .again hnonzero' hu' ht', hbelow⟩
  backward {s s' t' cost'} hs heval := by
    generalize hblock : Block.loop body' rest' = block at heval
    induction heval generalizing s with
    | done | act => cases hblock
    | leave hzero tail =>
      cases hblock
      obtain ⟨cost, t, ht⟩ := hrest.backward hs tail
      exact ⟨cost + 1, t, .leave ((Band.above_bisimulation.nonzero hs).trans hzero) ht⟩
    | again hnonzero round tail _ ih =>
      cases hblock
      obtain ⟨cost, u, hu⟩ := hbody.backward hs round
      obtain ⟨more, t, ht⟩ := ih (hbody.above hs hu round) rfl
      exact ⟨cost + more + 2, t, .again ((Band.above_bisimulation.nonzero hs).trans hnonzero) hu ht⟩

theorem cancel {action undo : Action} (h : action.inverse? = some undo) (rest : Block) :
    Simplifies (.act action (.act undo rest)) rest where
  forward hs heval := by
    cases heval with
    | act tail =>
      cases tail with
      | @act _ _ _ _ cost tail =>
        obtain ⟨cost', t', hcost, ht', hbelow⟩ :=
          (refl rest).forward ((Band.above_inverse h _).trans hs) tail
        exact ⟨cost', t', by omega, ht', hbelow⟩
  backward hs heval := by
    obtain ⟨cost, t, ht⟩ := (refl rest).backward ((Band.above_inverse h _).trans hs) heval
    exact ⟨cost + 2, t, .act (.act ht)⟩

end Simplifies

theorem exists_act_of_inverse {op undo : Opcode} (h : op.inverse? = some undo) :
    ∃ action action', op = .act action ∧ undo = .act action' ∧ action.inverse? = some action' := by
  cases op with
  | act action =>
    obtain ⟨action', hinverse, rfl⟩ := Option.map_eq_some_iff.1 h
    exact ⟨action, action', rfl, rfl, hinverse⟩
  | loopBegin | loopEnd => cases h

theorem exists_simplifies_of_inverse {block : Block} {front back : Code} {op undo : Opcode}
    (hinverse : op.inverse? = some undo) (h : block.code = front ++ op :: undo :: back) :
    ∃ block' : Block, block'.code = front ++ back ∧ Simplifies block block' := by
  obtain ⟨action, action', rfl, rfl, haction⟩ := exists_act_of_inverse hinverse
  induction block generalizing front back with
  | done => simp [code] at h
  | act first rest ih =>
    cases front with
    | nil =>
      obtain ⟨⟨⟩, hrest⟩ := List.cons.inj h
      cases rest with
      | done => cases hrest
      | act second rest =>
        obtain ⟨⟨⟩, hback⟩ := List.cons.inj hrest
        exact ⟨rest, hback, .cancel haction rest⟩
      | loop body rest => cases hrest
    | cons head front =>
      obtain ⟨rfl, hrest⟩ := List.cons.inj h
      obtain ⟨rest', hcode, hsimplifies⟩ := ih hrest
      exact ⟨.act first rest', congrArg (_ :: ·) hcode, hsimplifies.act first⟩
  | loop body rest ihbody ihrest =>
    cases front with
    | nil => cases h
    | cons head front =>
      obtain ⟨rfl, hinner⟩ := List.cons.inj h
      -- The pair is in the body or behind the loop, since a bracket is no action.
      obtain ⟨front', rfl, hrest⟩ | ⟨back', hbody, hback⟩ := List.append_eq_append_iff.1 hinner
      · cases front' with
        | nil => cases hrest
        | cons head front' =>
          obtain ⟨rfl, htail⟩ := List.cons.inj hrest
          obtain ⟨rest', hcode, hsimplifies⟩ := ihrest htail
          refine ⟨.loop body rest', ?_, Simplifies.loop (.refl body) hsimplifies⟩
          simp [code, hcode]
      · cases back' with
        | nil => cases hback
        | cons first back' =>
          obtain ⟨rfl, htail⟩ := List.cons.inj hback
          cases back' with
          | nil => cases htail
          | cons second back' =>
            obtain ⟨rfl, rfl⟩ := List.cons.inj htail
            obtain ⟨body', hcode, hsimplifies⟩ := ihbody hbody
            refine ⟨.loop body' rest, ?_, Simplifies.loop hsimplifies (.refl rest)⟩
            simp [code, hcode]

theorem exists_simplifies_of_reflTransGen {block : Block} {code : Code}
    (h : Relation.ReflTransGen Code.Cancels block.code code) :
    ∃ block' : Block, block'.code = code ∧ Simplifies block block' := by
  induction h with
  | refl => exact ⟨block, rfl, .refl block⟩
  | tail _ hcancels ih =>
    obtain ⟨middle, rfl, hmiddle⟩ := ih
    obtain ⟨front, back, op, undo, hpair, hcode, rfl⟩ := hcancels
    obtain ⟨last, hlast, hsimplifies⟩ :=
      exists_simplifies_of_inverse (Opcode.inverse?_eq_some_iff.2 hpair) hcode
    exact ⟨last, hlast, hmiddle.trans hsimplifies⟩

theorem exists_minify (block : Block) :
    ∃ block' : Block, block'.code = block.code.minify ∧ Simplifies block block' :=
  exists_simplifies_of_reflTransGen block.code.reflTransGen_minify

end Block

end ByteTape
