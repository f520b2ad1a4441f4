import ByteTape.Code

/-!
# Programs

A program is a code whose brackets match, together with the position of each bracket's partner.
Positions count opcodes from 0.
-/

namespace ByteTape

/-- Why brackets do not match, with the position of the bracket to blame. -/
inductive BracketFault where
  /-- A closing bracket with nothing open before it. -/
  | unmatched (position : Nat)
  /-- An opening bracket that nothing closes. -/
  | unclosed (position : Nat)
  deriving DecidableEq, Repr

def BracketFault.message : BracketFault → String
  | .unmatched position =>
    s!"Unbalanced brackets: `]` at position {position} has no matching `[`"
  | .unclosed position =>
    s!"Unbalanced brackets: `[` at position {position} is never closed"

namespace Code

/-- Fills in the partners of the brackets of `code`, which stands at `position`. The positions of the
brackets still open are in `pending`, innermost first. -/
def linkFrom : Code → Nat → List Nat → Array Nat → Except BracketFault (Array Nat)
  | [], _, [], partners => .ok partners
  | [], _, start :: _, _ => .error (.unclosed start)
  | .act _ :: rest, position, pending, partners =>
    linkFrom rest (position + 1) pending partners
  | .loopBegin :: rest, position, pending, partners =>
    linkFrom rest (position + 1) (position :: pending) partners
  | .loopEnd :: _, position, [], _ => .error (.unmatched position)
  | .loopEnd :: rest, position, start :: pending, partners =>
    linkFrom rest (position + 1) pending
      ((partners.setIfInBounds position start).setIfInBounds start position)

/-- The partner of every opcode; an action is its own partner. -/
def link (code : Code) : Except BracketFault (Array Nat) :=
  linkFrom code 0 [] (Array.range code.length)

end Code

/-- A code together with the partners of its brackets. -/
structure Program where
  opcodes : Array Opcode
  partners : Array Nat
  linked : Code.link opcodes.toList = .ok partners

namespace Program

def ofCode (code : Code) : Except BracketFault Program :=
  match h : code.link with
  | .ok partners => .ok { opcodes := code.toArray, partners, linked := h }
  | .error fault => .error fault

def ofString (text : String) : Except BracketFault Program :=
  ofCode (Code.ofString text)

def code (program : Program) : Code := program.opcodes.toList

def size (program : Program) : Nat := program.opcodes.size

def opcode? (program : Program) (position : Nat) : Option Opcode := program.opcodes[position]?

def partner? (program : Program) (position : Nat) : Option Nat := program.partners[position]?

/-- The partner of the opcode at `position`, which is the position itself unless a bracket stands
there. -/
def partner (program : Program) (position : Nat) : Nat := program.partners.getD position position

theorem ofCode_eq_ok_iff {code : Code} {program : Program} :
    ofCode code = .ok program ↔ program.code = code := by
  unfold ofCode
  split <;> rename_i hlink
  · simp only [Except.ok.injEq]
    constructor
    · rintro rfl
      rfl
    · intro hcode
      rcases program with ⟨opcodes, partners, linked⟩
      subst hcode
      simp only [code] at hlink
      simp only [Program.mk.injEq]
      exact ⟨Array.toArray_toList, by rw [hlink] at linked; exact Except.ok.inj linked⟩
  · constructor
    · rintro ⟨⟩
    · intro hcode
      rcases program with ⟨opcodes, partners, linked⟩
      subst hcode
      rw [code, linked] at hlink
      cases hlink

end Program

end ByteTape
