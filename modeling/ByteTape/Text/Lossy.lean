/-!
# Text of arbitrary bytes

Bytes are read as UTF-8. A sequence of bytes that begins a character and cannot be continued becomes
one replacement character, and so does a byte that begins no character, so the text of any bytes is
defined.
-/

namespace ByteTape.Text

def replacement : Char := '�'

/-- Where a reader stands between two bytes. -/
inductive Reading where
  | between
  /-- Inside a character: the bits read, how many bytes are owed, and the range of the next one. -/
  | inside (bits owed low high : Nat)

namespace Reading

/-- Reads a byte between characters. -/
def lead (byte : UInt8) : List Char × Reading :=
  let b := byte.toNat
  if b < 0x80 then ([Char.ofNat b], .between)
  else if b < 0xC2 then ([replacement], .between)
  else if b < 0xE0 then ([], .inside (b - 0xC0) 1 0x80 0xBF)
  else if b = 0xE0 then ([], .inside 0x0 2 0xA0 0xBF)
  else if b = 0xED then ([], .inside 0xD 2 0x80 0x9F)
  else if b < 0xF0 then ([], .inside (b - 0xE0) 2 0x80 0xBF)
  else if b = 0xF0 then ([], .inside 0x0 3 0x90 0xBF)
  else if b < 0xF4 then ([], .inside (b - 0xF0) 3 0x80 0xBF)
  else if b = 0xF4 then ([], .inside 0x4 3 0x80 0x8F)
  else ([replacement], .between)

/-- Reads a byte: the characters it completes, and where the reader stands after it. A byte that does
not continue a character is read again as the first of another. -/
def next : Reading → UInt8 → List Char × Reading
  | .between, byte => lead byte
  | .inside bits owed low high, byte =>
    if low ≤ byte.toNat ∧ byte.toNat ≤ high then
      let bits := bits * 64 + (byte.toNat - 0x80)
      if owed ≤ 1 then ([Char.ofNat bits], .between)
      else ([], .inside bits (owed - 1) 0x80 0xBF)
    else
      let (chars, reading) := lead byte
      (replacement :: chars, reading)

def decode : Reading → List UInt8 → List Char
  | .between, [] => []
  | .inside .., [] => [replacement]
  | reading, byte :: rest =>
    let (chars, reading) := reading.next byte
    chars ++ reading.decode rest

end Reading

def ofBytes (bytes : List UInt8) : String :=
  String.ofList (Reading.between.decode bytes)

end ByteTape.Text
