import ByteTape.Text.Printable

/-!
# Quoted text

Text in double quotes, on one line and in printable characters only. A quote or a backslash has a
backslash before it, four control characters have a letter of their own, and every other unprintable
character is written by its code point in hexadecimal.
-/

namespace ByteTape.Text

/-- The code point in hexadecimal, in braces. -/
def codePoint (c : Char) : List Char :=
  ['\\', 'u', '\x7b'] ++ Nat.toDigits 16 c.toNat ++ ['\x7d']

def escape (c : Char) : List Char :=
  match c with
  | '"' => ['\\', '"']
  | '\\' => ['\\', '\\']
  | '\x00' => ['\\', '0']
  | '\t' => ['\\', 't']
  | '\r' => ['\\', 'r']
  | '\n' => ['\\', 'n']
  | _ => if isPrintable c then [c] else codePoint c

def quote (text : List Char) : String :=
  String.ofList ('"' :: text.flatMap escape ++ ['"'])

end ByteTape.Text
