import JourneyMachine.Fault
import JourneyMachine.Image.Basic
import JourneyMachine.Text.Utf8

/-!
# Image format

Images as bytes. Fields stand in declaration order. Lengths, indices and the tags of constants are
varints: seven bits to a byte, the least significant first, with the high bit set on every byte but
the last. Numerals interleave the non-negative and the negative ones before they are written as
varints. Truths and the presence of optional fields take one byte, and texts are their length and
their UTF-8 bytes. Bytes after an image are not looked at.
-/

namespace JourneyMachine.Image

def writeVarint (n : Nat) : List UInt8 :=
  if n < 128 then [UInt8.ofNat n] else UInt8.ofNat (n % 128 + 128) :: writeVarint (n / 128)
termination_by n
decreasing_by omega

/-- Non-negative numerals become even numbers and negative ones odd numbers. -/
def interleave (n : Int64) : Nat :=
  if 0 ≤ n.toInt then 2 * n.toInt.natAbs else 2 * n.toInt.natAbs - 1

def separate (n : Nat) : Int64 :=
  if n % 2 = 0 then Int64.ofInt (n / 2) else Int64.ofInt (-((n / 2 : Nat) : Int) - 1)

def writeBool (b : Bool) : List UInt8 := [if b then 1 else 0]

def writeList {α : Type} (write : α → List UInt8) (xs : List α) : List UInt8 :=
  writeVarint xs.length ++ xs.flatMap write

def writeOption {α : Type} (write : α → List UInt8) : Option α → List UInt8
  | none => [0]
  | some a => 1 :: write a

def writeText (text : String) : List UInt8 :=
  writeVarint (Text.encode text).length ++ Text.encode text

def writeWord (w : UInt32) : List UInt8 := writeVarint w.toNat

mutual

def writeConstant : Constant → List UInt8
  | .ni => writeVarint 0
  | .veracity truth => writeVarint 1 ++ writeBool truth
  | .numeral n => writeVarint 2 ++ writeVarint (interleave n)
  | .text content => writeVarint 3 ++ writeText content
  | .journey index => writeVarint 4 ++ writeWord index
  | .form index => writeVarint 5 ++ writeWord index
  | .exception => writeVarint 6
  | .ioError => writeVarint 7
  | .book pages => writeVarint 8 ++ writeVarint pages.length ++ writeConstants pages

def writeConstants : List Constant → List UInt8
  | [] => []
  | c :: rest => writeConstant c ++ writeConstants rest

end

def writeParameter (p : Parameter) : List UInt8 :=
  writeText p.name ++ writeOption writeWord p.fallback ++ writeOption writeWord p.guard

def writeCodeblock (b : Codeblock) : List UInt8 :=
  writeWord b.registers ++ writeList writeConstant b.constants ++ writeList writeWord b.code

def writePattern (p : Pattern) : List UInt8 :=
  writeList writeParameter p.positional ++ writeList writeParameter p.keywords ++
    writeBool p.splat ++ writeBool p.splatsplat ++ writeOption writeWord p.condition ++
    writeWord p.start ++ writeCodeblock p.block

def writeJourney (j : Journey) : List UInt8 :=
  writeText j.name ++ writeList writePattern j.patterns

def writeEssence (e : Essence) : List UInt8 :=
  writeText e.name ++ writeConstant e.value ++ writeOption writeConstant e.guard

def writeMatter (m : Matter) : List UInt8 :=
  writeText m.name ++ writeOption writeConstant m.guard

def writeForm (f : Form) : List UInt8 :=
  writeText f.name ++ writeList writeEssence f.essences ++ writeList writeMatter f.matter ++
    writeList writeWord f.recollections ++ writeList writeWord f.changes ++
    writeOption writeWord f.imitate ++ writeList writeWord f.parents

def writeGlobal (g : Global) : List UInt8 :=
  writeText g.name ++ writeConstant g.value

def encode (image : Image) : List UInt8 :=
  writeList writeForm image.forms ++ writeList writeJourney image.journeys ++
    writeList writeGlobal image.globals ++ writeOption writeWord image.main ++
    writeOption writeWord image.argvGlobal

/-- Reads something from the front of bytes. -/
abbrev Reader := StateT (List UInt8) (Except ImageError)

def readByte : Reader UInt8 := fun
  | [] => .error .unexpectedEnd
  | b :: rest => .ok (b, rest)

/-- Reads a varint of at most so many bytes; if all of them are used, the last one is at most
`lastMax`. `weight` is the value of the next byte's lowest bit. -/
def readVarint (lastMax : UInt8) : Nat → Nat → Reader Nat
  | 0, _ => throw .badVarint
  | more + 1, weight => do
    let b ← readByte
    let low := b.toNat % 128 * weight
    if b < 128 then
      if more = 0 ∧ lastMax < b then throw .badVarint else return low
    else return low + (← readVarint lastMax more (weight * 128))

def readWord : Reader UInt32 := return UInt32.ofNat (← readVarint 15 5 1)

def readLong : Reader Nat := readVarint 1 10 1

def readBool : Reader Bool := do
  match ← readByte with
  | 0 => return false
  | 1 => return true
  | _ => throw .badBool

def readMany {α : Type} (read : Reader α) : Nat → Reader (List α)
  | 0 => return []
  | count + 1 => do
    let first ← read
    return first :: (← readMany read count)

def readList {α : Type} (read : Reader α) : Reader (List α) := do
  readMany read (← readLong)

def readOption {α : Type} (read : Reader α) : Reader (Option α) := do
  match ← readByte with
  | 0 => return none
  | 1 => return some (← read)
  | _ => throw .badOption

def readBytes (count : Nat) : Reader (List UInt8) := fun bytes =>
  if bytes.length < count then .error .unexpectedEnd
  else .ok (bytes.take count, bytes.drop count)

def readText : Reader String := do
  match Text.decode? (← readBytes (← readLong)) with
  | some text => return text
  | none => throw .badText

/-- Reads a constant of at most so many bytes. Its tag takes one at least, so what is inside a book
has fewer. -/
def readConstantWithin : Nat → Reader Constant
  | 0 => throw .unexpectedEnd
  | room + 1 => do
    match ← readWord with
    | 0 => return .ni
    | 1 => return .veracity (← readBool)
    | 2 => return .numeral (separate (← readLong))
    | 3 => return .text (← readText)
    | 4 => return .journey (← readWord)
    | 5 => return .form (← readWord)
    | 6 => return .exception
    | 7 => return .ioError
    | 8 => return .book (← readList (readConstantWithin room))
    | _ => throw .badVariant

def readConstant : Reader Constant := fun bytes => readConstantWithin bytes.length bytes

def readParameter : Reader Parameter := do
  let name ← readText
  let fallback ← readOption readWord
  let guard ← readOption readWord
  return { name, fallback, guard }

def readCodeblock : Reader Codeblock := do
  let registers ← readWord
  let constants ← readList readConstant
  let code ← readList readWord
  return { registers, constants, code }

def readPattern : Reader Pattern := do
  let positional ← readList readParameter
  let keywords ← readList readParameter
  let splat ← readBool
  let splatsplat ← readBool
  let condition ← readOption readWord
  let start ← readWord
  let block ← readCodeblock
  return { positional, keywords, splat, splatsplat, condition, start, block }

def readJourney : Reader Journey := do
  let name ← readText
  let patterns ← readList readPattern
  return { name, patterns }

def readEssence : Reader Essence := do
  let name ← readText
  let value ← readConstant
  let guard ← readOption readConstant
  return { name, value, guard }

def readMatter : Reader Matter := do
  let name ← readText
  let guard ← readOption readConstant
  return { name, guard }

def readForm : Reader Form := do
  let name ← readText
  let essences ← readList readEssence
  let matter ← readList readMatter
  let recollections ← readList readWord
  let changes ← readList readWord
  let imitate ← readOption readWord
  let parents ← readList readWord
  return { name, essences, matter, recollections, changes, imitate, parents }

def readGlobal : Reader Global := do
  let name ← readText
  let value ← readConstant
  return { name, value }

def readImage : Reader Image := do
  let forms ← readList readForm
  let journeys ← readList readJourney
  let globals ← readList readGlobal
  let main ← readOption readWord
  let argvGlobal ← readOption readWord
  return { forms, journeys, globals, main, argvGlobal }

def decode (bytes : List UInt8) : Except Fault Image :=
  match readImage bytes with
  | .ok (image, _) => .ok image
  | .error error => .error (.image error)

end JourneyMachine.Image
