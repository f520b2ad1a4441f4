import Mathlib.Data.List.Chain
import Mathlib.Logic.Relation
import ByteTape.Minify

/-!
# The normal form of a code

Neighbours that undo each other can be deleted in many orders, and pairs may overlap. All orders end
in the same code, and minification computes it. The reason is an invariant of the pass: what is kept
holds no such pair, and from there a pair that comes next leaves no trace, wherever its first half
goes (`Reduced.cancelPush_pair`).
-/

namespace ByteTape

/-- The neighbours that undo each other. -/
def Opcode.inversePairs : List (Opcode × Opcode) :=
  [(.act .inc, .act .dec), (.act .dec, .act .inc), (.act .left, .act .right),
    (.act .right, .act .left)]

theorem Opcode.inverse?_eq_some_iff {op undo : Opcode} :
    op.inverse? = some undo ↔ (op, undo) ∈ inversePairs := by
  rcases op with (_ | _ | _ | _ | _ | _) | _ | _ <;>
    rcases undo with (_ | _ | _ | _ | _ | _) | _ | _ <;> decide

namespace Code

open Opcode (inversePairs inverse?_eq_some_iff inverse?_eq_some_comm)
open Relation (ReflTransGen)

/-- One pair of neighbours that undo each other is deleted. -/
def Cancels (code shorter : Code) : Prop :=
  ∃ front back op undo, (op, undo) ∈ inversePairs ∧ code = front ++ op :: undo :: back ∧
    shorter = front ++ back

/-- No two neighbours undo each other. -/
def Reduced (code : Code) : Prop := code.IsChain fun op undo => (op, undo) ∉ inversePairs

theorem mem_inversePairs_comm {op undo : Opcode} :
    (op, undo) ∈ inversePairs ↔ (undo, op) ∈ inversePairs := by
  rw [← inverse?_eq_some_iff, ← inverse?_eq_some_iff, inverse?_eq_some_comm]

/-- An opcode is undone by one opcode at most. -/
theorem eq_of_mem_inversePairs {op undo undo' : Opcode} (h : (op, undo) ∈ inversePairs)
    (h' : (op, undo') ∈ inversePairs) : undo = undo' := by
  rw [← inverse?_eq_some_iff] at h h'
  exact Option.some.inj (h.symm.trans h')

/-! ### Deleting one pair -/

theorem Cancels.length {code shorter : Code} (h : Cancels code shorter) :
    shorter.length + 2 = code.length := by
  obtain ⟨front, back, op, undo, -, rfl, rfl⟩ := h
  simp only [List.length_append, List.length_cons]
  omega

theorem Cancels.append {code shorter : Code} (h : Cancels code shorter) (front back : Code) :
    Cancels (front ++ code ++ back) (front ++ shorter ++ back) := by
  obtain ⟨front', back', op, undo, hpair, rfl, rfl⟩ := h
  exact ⟨front ++ front', back' ++ back, op, undo, hpair, by simp, by simp⟩

theorem reduced_iff_forall_not_cancels {code : Code} :
    Reduced code ↔ ∀ shorter, ¬Cancels code shorter := by
  constructor
  · rintro h shorter ⟨front, back, op, undo, hpair, rfl, -⟩
    exact (List.isChain_append_cons_cons.1 h).2.1 hpair
  · intro h
    induction code with
    | nil => exact .nil
    | cons op code ih =>
      have htail : Reduced code := by
        refine ih fun shorter hcancels => h (op :: shorter) ?_
        simpa using hcancels.append [op] []
      cases code with
      | nil => exact .singleton op
      | cons undo code =>
        refine .cons_cons (fun hpair => ?_) htail
        exact h code ⟨[], code, op, undo, hpair, rfl, rfl⟩

/-- Deleting pairs comes to an end. -/
theorem exists_not_cancels (order : Nat → Code) : ∃ n, ¬Cancels (order n) (order (n + 1)) := by
  by_contra hnone
  have hcancels : ∀ n, Cancels (order n) (order (n + 1)) := by
    intro n
    by_contra hn
    exact hnone ⟨n, hn⟩
  have hlength : ∀ n, (order n).length + 2 * n = (order 0).length := by
    intro n
    induction n with
    | zero => rfl
    | succ n ih =>
      have hstep := (hcancels n).length
      omega
  have hend := hlength ((order 0).length + 1)
  omega

/-! ### What is kept -/

theorem cancelPush_of_mem {last op : Opcode} (h : (last, op) ∈ inversePairs) (rest : Code) :
    cancelPush (last :: rest) op = rest :=
  if_pos (inverse?_eq_some_iff.2 h)

theorem cancelPush_of_not_mem {last op : Opcode} (h : (last, op) ∉ inversePairs) (rest : Code) :
    cancelPush (last :: rest) op = op :: last :: rest :=
  if_neg (mt inverse?_eq_some_iff.1 h)

theorem reduced_reverse {code : Code} : Reduced code.reverse ↔ Reduced code := by
  simp only [Reduced, List.isChain_reverse, mem_inversePairs_comm]

namespace Reduced

variable {kept : Code}

theorem cancelPush (h : Reduced kept) (op : Opcode) : Reduced (kept.cancelPush op) := by
  cases kept with
  | nil => exact .singleton op
  | cons last rest =>
    by_cases hpair : (last, op) ∈ inversePairs
    · rw [cancelPush_of_mem hpair]
      exact List.IsChain.tail h
    · rw [cancelPush_of_not_mem hpair]
      exact .cons_cons (mt mem_inversePairs_comm.1 hpair) h

theorem foldl_cancelPush (h : Reduced kept) (code : Code) :
    Reduced (code.foldl Code.cancelPush kept) := by
  induction code generalizing kept with
  | nil => exact h
  | cons op code ih => exact ih (h.cancelPush op)

/-- A pair leaves no trace, whether its first half is kept or undoes what was kept before. -/
theorem cancelPush_pair (h : Reduced kept) {op undo : Opcode} (hpair : (op, undo) ∈ inversePairs) :
    (kept.cancelPush op).cancelPush undo = kept := by
  cases kept with
  | nil => exact cancelPush_of_mem hpair []
  | cons last rest =>
    by_cases hlast : (last, op) ∈ inversePairs
    · obtain rfl : last = undo := eq_of_mem_inversePairs (mem_inversePairs_comm.1 hlast) hpair
      rw [cancelPush_of_mem hlast]
      -- The second half takes the place of the one that was undone, as it did before.
      cases rest with
      | nil => rfl
      | cons previous rest =>
        have hprevious : (last, previous) ∉ inversePairs := (List.isChain_cons_cons.1 h).1
        exact cancelPush_of_not_mem (mt mem_inversePairs_comm.1 hprevious) rest
    · rw [cancelPush_of_not_mem hlast, cancelPush_of_mem hpair]

end Reduced

/-! ### The pass -/

theorem reduced_minify (code : Code) : Reduced code.minify :=
  reduced_reverse.2 (Reduced.foldl_cancelPush .nil code)

theorem reflTransGen_foldl_cancelPush (kept code : Code) :
    ReflTransGen Cancels (kept.reverse ++ code) (code.foldl cancelPush kept).reverse := by
  induction code generalizing kept with
  | nil => rw [List.append_nil, List.foldl_nil]
  | cons op code ih =>
    rw [List.foldl_cons]
    refine ReflTransGen.trans ?_ (ih (cancelPush kept op))
    cases kept with
    | nil => exact .refl
    | cons last rest =>
      by_cases hpair : (last, op) ∈ inversePairs
      · rw [cancelPush_of_mem hpair]
        exact .single ⟨rest.reverse, code, last, op, hpair, by simp, rfl⟩
      · rw [cancelPush_of_not_mem hpair]
        simp only [List.reverse_cons, List.append_assoc, List.singleton_append]
        exact .refl

theorem reflTransGen_minify (code : Code) : ReflTransGen Cancels code code.minify :=
  reflTransGen_foldl_cancelPush [] code

theorem Cancels.minify_eq {code shorter : Code} (h : Cancels code shorter) :
    shorter.minify = code.minify := by
  obtain ⟨front, back, op, undo, hpair, rfl, rfl⟩ := h
  have hkept : Reduced (front.foldl cancelPush []) := Reduced.foldl_cancelPush .nil front
  simp only [minify, List.foldl_append, List.foldl_cons, hkept.cancelPush_pair hpair]

theorem minify_eq_of_reflTransGen {code shorter : Code} (h : ReflTransGen Cancels code shorter) :
    shorter.minify = code.minify := by
  induction h with
  | refl => rfl
  | tail _ hcancels ih => rw [hcancels.minify_eq, ih]

theorem Reduced.minify_eq {code : Code} (h : Reduced code) : code.minify = code :=
  (Relation.reflTransGen_iff_eq (reduced_iff_forall_not_cancels.1 h)).1 (reflTransGen_minify code)

theorem reflTransGen_append {a a' b b' : Code} (ha : ReflTransGen Cancels a a')
    (hb : ReflTransGen Cancels b b') : ReflTransGen Cancels (a ++ b) (a' ++ b') := by
  have hleft : ReflTransGen Cancels (a ++ b) (a' ++ b) :=
    ha.lift (· ++ b) fun _ _ hcancels => by simpa using hcancels.append [] b
  have hright : ReflTransGen Cancels (a' ++ b) (a' ++ b') :=
    hb.lift (a' ++ ·) fun _ _ hcancels => by simpa using hcancels.append a' []
  exact hleft.trans hright

/-- **Minification computes the normal form.** It deletes neighbours that undo each other until none
are left. Whichever pairs are deleted first, the rest is minified to the same code. So deleting
pairs ends, whatever the order, and when no pair is left the code is the minified one; minifying
again changes nothing, and the parts of a code may be minified first. -/
theorem minify_computes_normal_form (code : Code) :
    ReflTransGen Cancels code code.minify ∧ Reduced code.minify ∧
    (∀ shorter, ReflTransGen Cancels code shorter → shorter.minify = code.minify) ∧
    (∀ order : Nat → Code, order 0 = code → ∃ n, ¬Cancels (order n) (order (n + 1))) ∧
    (∀ last, ReflTransGen Cancels code last → (∀ shorter, ¬Cancels last shorter) →
      last = code.minify) ∧
    code.minify.minify = code.minify ∧
    ∀ more : Code, minify (code ++ more) = minify (code.minify ++ more.minify) := by
  refine ⟨reflTransGen_minify code, reduced_minify code, fun shorter => minify_eq_of_reflTransGen,
    fun order _ => exists_not_cancels order, ?_, (reduced_minify code).minify_eq, ?_⟩
  · intro last hlast hend
    rw [← minify_eq_of_reflTransGen hlast, (reduced_iff_forall_not_cancels.2 hend).minify_eq]
  · intro more
    have hparts := reflTransGen_append (reflTransGen_minify code) (reflTransGen_minify more)
    exact (minify_eq_of_reflTransGen hparts).symm

end Code

end ByteTape
