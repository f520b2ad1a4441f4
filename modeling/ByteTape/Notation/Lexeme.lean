import ByteTape.Text.Blank

/-!
# Lexemes of the tape notation

Blanks separate lexemes and are dropped. A maximal run of decimal digits is a number, and every other
character is a lexeme of its own, so every text has lexemes. Places are byte offsets in UTF-8.
-/

namespace ByteTape.Notation

inductive Symbol where
  | number (digits : List Char)
  | opening
  | closing
  | bar
  /-- A character that has no meaning in the notation. -/
  | stray (char : Char)
  deriving DecidableEq, Repr

def Symbol.ofChar : Char → Symbol
  | '[' => .opening
  | ']' => .closing
  | '|' => .bar
  | c => .stray c

/-- The text of a symbol. -/
def Symbol.chars : Symbol → List Char
  | .number digits => digits
  | .opening => ['[']
  | .closing => [']']
  | .bar => ['|']
  | .stray c => [c]

/-- Bytes that a text takes. -/
def byteSize : List Char → Nat
  | [] => 0
  | c :: rest => c.utf8Size + byteSize rest

@[simp]
theorem byteSize_nil : byteSize [] = 0 := rfl

@[simp]
theorem byteSize_cons (c : Char) (rest : List Char) :
    byteSize (c :: rest) = c.utf8Size + byteSize rest := rfl

@[simp]
theorem byteSize_append (front back : List Char) :
    byteSize (front ++ back) = byteSize front + byteSize back := by
  induction front with
  | nil => simp
  | cons c front ih => rw [List.cons_append, byteSize_cons, byteSize_cons, ih, Nat.add_assoc]

structure Lexeme where
  symbol : Symbol
  start : Nat
  deriving DecidableEq, Repr

namespace Lexeme

def stop (lexeme : Lexeme) : Nat := lexeme.start + byteSize lexeme.symbol.chars

/-- The lexemes of a text that stands at `offset`. -/
def scanFrom (offset : Nat) (text : List Char) : List Lexeme :=
  match text with
  | [] => []
  | c :: rest =>
    if Text.isBlank c then
      scanFrom (offset + c.utf8Size) rest
    else if c.isDigit then
      let digits := c :: rest.takeWhile Char.isDigit
      ⟨.number digits, offset⟩ :: scanFrom (offset + byteSize digits) (rest.dropWhile Char.isDigit)
    else
      ⟨.ofChar c, offset⟩ :: scanFrom (offset + c.utf8Size) rest
termination_by text.length
decreasing_by
  · simp
  · have hle := (List.dropWhile_suffix Char.isDigit (l := rest)).length_le
    simp only [List.length_cons]
    omega
  · simp

def scan (text : String) : List Lexeme := scanFrom 0 text.toList

theorem scanFrom_nil (offset : Nat) : scanFrom offset [] = [] := by
  rw [scanFrom.eq_def]

theorem scanFrom_cons (offset : Nat) (c : Char) (rest : List Char) :
    scanFrom offset (c :: rest) =
      if Text.isBlank c then scanFrom (offset + c.utf8Size) rest
      else if c.isDigit then
        ⟨.number (c :: rest.takeWhile Char.isDigit), offset⟩ ::
          scanFrom (offset + byteSize (c :: rest.takeWhile Char.isDigit))
            (rest.dropWhile Char.isDigit)
      else ⟨.ofChar c, offset⟩ :: scanFrom (offset + c.utf8Size) rest := by
  rw [scanFrom.eq_def]

end Lexeme

end ByteTape.Notation
