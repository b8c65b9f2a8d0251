/-!
# Bytes as text

Output is collected in bytes and can be cut off anywhere, also inside a character. To show such
bytes, each longest stretch that begins a character but does not complete it, and each byte that
begins none, is replaced by the replacement character.
-/

namespace Treewalk.Utf8

/-- Stands for bytes that are no text. -/
def replacement : Char := '\ufffd'

/-- What a leading byte says: the bits it gives, how many bytes follow it, and the range in which
the first of these must lie. -/
def lead? (b : Nat) : Option (Nat × Nat × Nat × Nat) :=
  if b < 0x80 then some (b, 0, 0, 0)
  else if b < 0xC2 then none
  else if b < 0xE0 then some (b - 0xC0, 1, 0x80, 0xBF)
  else if b = 0xE0 then some (0x0, 2, 0xA0, 0xBF)
  else if b = 0xED then some (0xD, 2, 0x80, 0x9F)
  else if b < 0xF0 then some (b - 0xE0, 2, 0x80, 0xBF)
  else if b = 0xF0 then some (0, 3, 0x90, 0xBF)
  else if b < 0xF4 then some (b - 0xF0, 3, 0x80, 0xBF)
  else if b = 0xF4 then some (4, 3, 0x80, 0x8F)
  else none

/-- Read the bytes that complete a character, as far as they do. -/
def complete : Nat → Nat → Nat → Nat → List UInt8 → Option Nat × List UInt8
  | 0, _, _, code, rest => (some code, rest)
  | _ + 1, _, _, _, [] => (none, [])
  | n + 1, low, high, code, b :: rest =>
    if low ≤ b.toNat ∧ b.toNat ≤ high then
      complete n 0x80 0xBF (code * 64 + (b.toNat - 0x80)) rest
    else (none, b :: rest)

/-- Read at most `count` characters, adding to those read so far, which are in reverse. -/
def readChars : Nat → List UInt8 → List Char → List Char
  | 0, _, read => read.reverse
  | _ + 1, [], read => read.reverse
  | count + 1, b :: rest, read =>
    match lead? b.toNat with
    | none => readChars count rest (replacement :: read)
    | some (code, more, low, high) =>
      match complete more low high code rest with
      | (some code, rest) => readChars count rest (Char.ofNat code :: read)
      | (none, rest) => readChars count rest (replacement :: read)

/-- The text of some bytes, with the replacement character for what is no text. -/
def decodeLossy (bytes : ByteArray) : String :=
  match String.fromUTF8? bytes with
  | some text => text
  | none => String.ofList (readChars bytes.size bytes.toList [])

end Treewalk.Utf8
