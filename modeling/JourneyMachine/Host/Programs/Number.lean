import JourneyMachine.Host.Programs.Echo

namespace JourneyMachine.Host.Number

open Echo (digit?)

def isSpace (c : Char) : Bool := c ∈ [' ', '\t', '\n', '\x0b', '\x0c', '\r']

/-- The digits of a base at the front as a number, how many there are, and what follows. -/
def digitsOf (base : Nat) : Nat → Nat → List Char → Nat × Nat × List Char
  | value, count, [] => (value, count, [])
  | value, count, c :: rest =>
    match digit? base c with
    | some d => digitsOf base (value * base + d) (count + 1) rest
    | none => (value, count, c :: rest)

def sign : List Char → Bool × List Char
  | '-' :: rest => (true, rest)
  | '+' :: rest => (false, rest)
  | cs => (false, cs)

/-- The whole number at the front and what follows it; with `based`, a leading `0x` or `0`
chooses the base, else the base is ten. Without digits nothing is read. -/
def whole? (based : Bool) (cs : List Char) : Option (Int × List Char) :=
  let (negative, unsigned) := sign (cs.dropWhile isSpace)
  let signed (n : Nat) : Int := if negative then -(n : Int) else n
  match based, unsigned with
  | true, '0' :: x :: c :: rest =>
    if (x = 'x' ∨ x = 'X') ∧ (digit? 16 c).isSome then
      let (n, _, rest) := digitsOf 16 0 0 (c :: rest)
      some (signed n, rest)
    else
      let (n, _, rest) := digitsOf 8 0 0 unsigned
      some (signed n, rest)
  | true, '0' :: _ =>
    let (n, _, rest) := digitsOf 8 0 0 unsigned
    some (signed n, rest)
  | _, _ =>
    let (n, count, rest) := digitsOf 10 0 0 unsigned
    if count = 0 then none else some (signed n, rest)

def greatest : Int := 9223372036854775807

def least : Int := -9223372036854775808

def clamp (n : Int) : Int := if greatest < n then greatest else if n < least then least else n

def wrap (n : Int) : Int := Int.bmod n 18446744073709551616

/-- A fraction with a sign, or one of the values that are no fractions. -/
inductive Quantity where
  | finite (negative : Bool) (num den : Nat)
  | infinite (negative : Bool)
  | undefined (negative : Bool)
deriving DecidableEq, Repr

/-- Whether a text starts with a word, upper and lower case being the same. -/
def startsWith (word : List Char) (cs : List Char) : Bool :=
  (cs.take word.length).map Char.toLower = word

/-- The exponent behind a letter, and what follows; nothing is read without digits. -/
def exponent (letters : List Char) (cs : List Char) : Int × List Char :=
  match cs with
  | e :: rest =>
    if e ∈ letters then
      let (negative, unsigned) := sign rest
      let (n, count, after) := digitsOf 10 0 0 unsigned
      if count = 0 then (0, cs)
      else
        let n := min n 100000
        (if negative then -(n : Int) else n, after)
    else (0, cs)
  | [] => (0, cs)

def scaled (negative : Bool) (mantissa base : Nat) (power : Int) : Quantity :=
  if 0 ≤ power then .finite negative (mantissa * Nat.pow base power.toNat) 1
  else .finite negative mantissa (Nat.pow base (-power).toNat)

/-- What follows a label in brackets, which a value that is no number may carry. -/
def afterLabel (cs : List Char) : List Char :=
  match cs with
  | '(' :: rest =>
    match rest.dropWhile fun c => c.isAlphanum || c = '_' with
    | ')' :: after => after
    | _ => cs
  | _ => cs

/-- Whether hexadecimal digits follow the front of a text, perhaps behind a point. -/
def isHexadecimal (cs : List Char) : Bool :=
  startsWith "0x".toList cs &&
    match cs.drop 2 with
    | '.' :: c :: _ => (digit? 16 c).isSome
    | c :: _ => (digit? 16 c).isSome
    | [] => false

/-- The decimal or hexadecimal fraction at the front and what follows it. -/
def real? (cs : List Char) : Option (Quantity × List Char) :=
  let (negative, unsigned) := sign (cs.dropWhile isSpace)
  if startsWith "infinity".toList unsigned then some (.infinite negative, unsigned.drop 8)
  else if startsWith "inf".toList unsigned then some (.infinite negative, unsigned.drop 3)
  else if startsWith "nan".toList unsigned then
    some (.undefined negative, afterLabel (unsigned.drop 3))
  else
    let hexadecimal := isHexadecimal unsigned
    let base := if hexadecimal then 16 else 10
    let (n, count, rest) := digitsOf base 0 0 (if hexadecimal then unsigned.drop 2 else unsigned)
    let (n, places, rest) :=
      match rest with
      | '.' :: fraction =>
        let (n, more, rest') := digitsOf base n 0 fraction
        if count + more = 0 then (n, 0, rest) else (n, more, rest')
      | _ => (n, 0, rest)
    if count + places = 0 then none
    else if hexadecimal then
      let (e, rest) := exponent ['p', 'P'] rest
      some (scaled negative n 2 (e - 4 * places), rest)
    else
      let (e, rest) := exponent ['e', 'E'] rest
      some (scaled negative n 10 (e - places), rest)

/-- A quotient rounded to the nearest whole number, a half to the even one. -/
def roundedQuotient (num den : Nat) : Nat :=
  let q := num / den
  let r := num % den
  if den < 2 * r then q + 1
  else if 2 * r = den then q + q % 2
  else q

/-- How fractions are kept: as a mantissa of some bits times a power of two. -/
structure Binary where
  bits : Nat
  /-- The least power of two a mantissa stands before. -/
  least : Int
  /-- The power of two that no fraction reaches. -/
  limit : Nat
  /-- How many bits the leading hexadecimal digit shows. -/
  leading : Nat
deriving DecidableEq, Repr

def Binary.double : Binary := ⟨53, -1074, 1024, 1⟩

def Binary.extended : Binary := ⟨64, -16445, 16384, 4⟩

def leadingBit (num den : Nat) : Int :=
  let guess : Int := (num.log2 : Int) - (den.log2 : Int)
  let reached :=
    if 0 ≤ guess then den * Nat.pow 2 guess.toNat ≤ num else den ≤ num * Nat.pow 2 (-guess).toNat
  if reached then guess else guess - 1

/-- A fraction divided by a power of two, as numerator and denominator. -/
def overPower (num den : Nat) (power : Int) : Nat × Nat :=
  if 0 ≤ power then (num, den * Nat.pow 2 power.toNat) else (num * Nat.pow 2 (-power).toNat, den)

/-- A fraction rounded to the ones that are kept, and whether it is in their range: not too large,
and not so small that bits are lost. -/
def rounded (b : Binary) : Quantity → Quantity × Bool
  | .finite negative num den =>
    if num = 0 then (.finite negative 0 1, true)
    else
      let power := max (leadingBit num den + 1 - b.bits) b.least
      let (n, d) := overPower num den power
      let mantissa := roundedQuotient n d
      if mantissa ≠ 0 ∧ (b.limit : Int) ≤ mantissa.log2 + power then (.infinite negative, false)
      else (scaled negative mantissa 2 power, n % d = 0 || Nat.pow 2 (b.bits - 1) ≤ mantissa)
  | r => (r, true)

end JourneyMachine.Host.Number
