import ByteTape.Code

/-!
# Minification

Neighbouring actions that undo each other are dropped, and so are those that become neighbours by
that, until none are left.
-/

namespace ByteTape.Code

/-- Puts `op` after a code that is given last opcode first, or drops both if `op` undoes its last
opcode. -/
def cancelPush (reversed : Code) (op : Opcode) : Code :=
  match reversed with
  | last :: rest => if last.inverse? = some op then rest else op :: last :: rest
  | [] => [op]

def minify (code : Code) : Code := (code.foldl cancelPush []).reverse

end ByteTape.Code
