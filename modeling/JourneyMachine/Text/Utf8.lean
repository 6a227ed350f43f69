/-!
# Reading bytes as UTF-8

`Text.decode?` accepts well-formed UTF-8 only. `Text.decodeLossy` reads any bytes: every longest
piece that starts a character and cannot be finished is replaced by one U+FFFD.
-/

namespace JourneyMachine.Text

def encode (text : String) : List UInt8 :=
  text.toUTF8.data.toList

def decode? (bytes : List UInt8) : Option String :=
  String.fromUTF8? ⟨bytes.toArray⟩

/-- A character of which some bytes have been read: `low` and `high` bound the next byte, `more`
further bytes follow it, and `code` holds the bits read so far. -/
structure Unfinished where
  low : UInt8
  high : UInt8
  more : Nat
  code : Nat

/-- What the first byte of a character tells. -/
inductive Lead where
  | whole (c : Char)
  | opens (rest : Unfinished)
  | invalid

/-- Reads the first byte of a character. The bounds of the second byte exclude overlong forms,
surrogates and code points above U+10FFFF. -/
def lead (b : UInt8) : Lead :=
  if b < 0x80 then .whole (Char.ofNat b.toNat)
  else if b < 0xC2 then .invalid
  else if b < 0xE0 then .opens ⟨0x80, 0xBF, 0, b.toNat % 32⟩
  else if b < 0xF0 then
    .opens ⟨if b = 0xE0 then 0xA0 else 0x80, if b = 0xED then 0x9F else 0xBF, 1, b.toNat % 16⟩
  else if b < 0xF5 then
    .opens ⟨if b = 0xF0 then 0x90 else 0x80, if b = 0xF4 then 0x8F else 0xBF, 2, b.toNat % 8⟩
  else .invalid

def replacement : Char := '\ufffd'

/-- Reads bytes with a character possibly half read. -/
def decodeFrom : Option Unfinished → List UInt8 → List Char
  | none, [] => []
  | some _, [] => [replacement]
  | none, b :: rest =>
    match lead b with
    | .whole c => c :: decodeFrom none rest
    | .opens u => decodeFrom (some u) rest
    | .invalid => replacement :: decodeFrom none rest
  | some u, b :: rest =>
    if u.low ≤ b ∧ b ≤ u.high then
      let code := u.code * 64 + b.toNat % 64
      match u.more with
      | 0 => Char.ofNat code :: decodeFrom none rest
      | more + 1 => decodeFrom (some ⟨0x80, 0xBF, more, code⟩) rest
    else
      replacement ::
        match lead b with
        | .whole c => c :: decodeFrom none rest
        | .opens u => decodeFrom (some u) rest
        | .invalid => replacement :: decodeFrom none rest

/-- The text of any bytes, with U+FFFD in place of what is not UTF-8. -/
def decodeLossy (bytes : List UInt8) : String :=
  String.ofList (decodeFrom none bytes)

end JourneyMachine.Text
