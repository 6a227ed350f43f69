import JourneyMachine.Host.Programs.Number

namespace JourneyMachine.Host.Format

open Number (Binary Quantity leadingBit overPower roundedQuotient)

structure Directive where
  alternate : Bool := false
  left : Bool := false
  plus : Bool := false
  blank : Bool := false
  zero : Bool := false
  width : Nat := 0
  precision : Option Nat := none
deriving DecidableEq, Repr

namespace Directive

def flag? (d : Directive) : Char → Option Directive
  | '#' => some { d with alternate := true }
  | '-' => some { d with left := true }
  | '+' => some { d with plus := true }
  | ' ' => some { d with blank := true }
  | '0' => some { d with zero := true }
  | _ => none

def setWidth (d : Directive) (width : Int) : Directive :=
  if width < 0 then { d with left := true, width := (-width).toNat }
  else { d with width := width.toNat }

def pad (d : Directive) (zeros : Bool) (head body : List Char) : List Char :=
  let missing := d.width - (head.length + body.length)
  if d.left then head ++ body ++ List.replicate missing ' '
  else if zeros then head ++ List.replicate missing '0' ++ body
  else List.replicate missing ' ' ++ head ++ body

def text (d : Directive) (cs : List Char) : List Char :=
  d.pad false [] (match d.precision with | some n => cs.take n | none => cs)

def character (d : Directive) (cs : List Char) : List Char :=
  d.pad false [] cs

def signOf (d : Directive) (negative : Bool) : List Char :=
  if negative then ['-'] else if d.plus then ['+'] else if d.blank then [' '] else []

/-- The digits of a number with at least as many places as the precision asks for. -/
def places (d : Directive) (base n : Nat) : List Char :=
  let digits := if n = 0 ∧ d.precision = some 0 then [] else Nat.toDigits base n
  List.replicate (d.precision.getD 1 - digits.length) '0' ++ digits

def signed (d : Directive) (n : Int) : List Char :=
  d.pad (d.zero && d.precision.isNone) (d.signOf (n < 0)) (d.places 10 n.natAbs)

def unsigned (d : Directive) (letter : Char) (n : Nat) : List Char :=
  let zeros := d.zero && d.precision.isNone
  match letter with
  | 'o' =>
    let digits := d.places 8 n
    let digits := if d.alternate ∧ digits.head? ≠ some '0' then '0' :: digits else digits
    d.pad zeros [] digits
  | 'x' => d.pad zeros (if d.alternate ∧ n ≠ 0 then ['0', 'x'] else []) (d.places 16 n)
  | 'X' =>
    d.pad zeros (if d.alternate ∧ n ≠ 0 then ['0', 'X'] else [])
      ((d.places 16 n).map Char.toUpper)
  | _ => d.pad zeros [] (d.places 10 n)

/-- A number of hundredths and the like with its point: `scaled` counts units of the last place. -/
def pointed (alternate : Bool) (scaled places : Nat) : List Char :=
  let digits := Nat.toDigits 10 scaled
  let digits := List.replicate (places + 1 - digits.length) '0' ++ digits
  let front := digits.take (digits.length - places)
  let back := digits.drop (digits.length - places)
  if back = [] ∧ ¬ alternate then front else front ++ '.' :: back

def fixed (alternate : Bool) (num den places : Nat) : List Char :=
  pointed alternate (roundedQuotient (num * Nat.pow 10 places) den) places

/-- The power of ten of the leading digit of a fraction that is not zero. The logarithms of the two
parts leave a few candidates, of which the right one is found from above. -/
def leadingPower (num den : Nat) : Int :=
  let guess : Int := (Nat.toDigits 10 num).length - (Nat.toDigits 10 den).length
  let reaches (p : Int) : Bool :=
    if 0 ≤ p then den * Nat.pow 10 p.toNat ≤ num else den ≤ num * Nat.pow 10 (-p).toNat
  if reaches (guess + 1) then guess + 1 else if reaches guess then guess else guess - 1

/-- The digits of a fraction with one of them before the point, and the power of ten. -/
def scientific (num den places : Nat) : Nat × Int :=
  if num = 0 then (0, 0)
  else
    let power := leadingPower num den
    let shift := (places : Int) - power
    let digits :=
      if 0 ≤ shift then roundedQuotient (num * Nat.pow 10 shift.toNat) den
      else roundedQuotient num (den * Nat.pow 10 (-shift).toNat)
    if Nat.pow 10 (places + 1) ≤ digits then (digits / 10, power + 1) else (digits, power)

def powerText (letter : Char) (power : Int) : List Char :=
  let digits := Nat.toDigits 10 power.natAbs
  letter :: (if power < 0 then '-' else '+') ::
    (List.replicate (2 - digits.length) '0' ++ digits)

/-- Takes zeros off the end of the places, and the point if nothing follows it. -/
def trimZeros (cs : List Char) : List Char :=
  if cs.contains '.' then
    match cs.reverse.dropWhile (· = '0') with
    | '.' :: rest => rest.reverse
    | rest => rest.reverse
  else cs

def magnitude (d : Directive) (letter : Char) (num den : Nat) : List Char :=
  let places := d.precision.getD 6
  match letter.toLower with
  | 'f' => fixed d.alternate num den places
  | 'e' =>
    let (digits, power) := scientific num den places
    pointed d.alternate digits places ++ powerText letter power
  | _ =>
    let places := if places = 0 then 1 else places
    let (digits, power) := scientific num den (places - 1)
    let tidy (cs : List Char) := if d.alternate then cs else trimZeros cs
    -- Rounding may give one digit more than there is room for before the point.
    let carried := 0 < num && power = places && leadingPower num den < power
    let (digits, places) := if carried then (1, 1) else (digits, places)
    if -4 ≤ power ∧ power < places then
      tidy (fixed d.alternate num den ((places : Int) - 1 - power).toNat)
    else
      tidy (pointed d.alternate digits (places - 1)) ++
        powerText (if letter = 'g' then 'e' else 'E') power

/-- The hexadecimal digits of a fraction that is kept exactly, how many of them stand behind the
point, and the power of two. -/
def hexadecimal (b : Binary) (num den : Nat) : Nat × Nat × Int :=
  let places := (b.bits - b.leading) / 4
  if num = 0 then (0, places, 0)
  else
    let power := max (leadingBit num den + 1 - b.leading) (b.least + 4 * places)
    let (n, d) := overPower num den (power - 4 * places)
    (n / d, places, power)

/-- Hexadecimal digits brought to a number of places. A carry out of the leading digit makes the
power four greater. -/
def cutHexadecimal (digits places : Nat) (power : Int) (wanted : Nat) : Nat × Int :=
  if wanted < places then
    let cut := roundedQuotient digits (Nat.pow 16 (places - wanted))
    if Nat.pow 16 (wanted + 1) ≤ cut then (cut / 16, power + 4) else (cut, power)
  else (digits * Nat.pow 16 (wanted - places), power)

/-- A fraction in hexadecimal digits, without its sign and the mark in front. Unless the precision
says how many places there are, zeros at the end are left out. -/
def hexadecimalText (b : Binary) (d : Directive) (num den : Nat) : List Char :=
  let (digits, places, power) := hexadecimal b num den
  let wanted := d.precision.getD places
  let (digits, power) := cutHexadecimal digits places power wanted
  let all := Nat.toDigits 16 digits
  let all := List.replicate (wanted + 1 - all.length) '0' ++ all
  let back := all.drop 1
  let back :=
    if d.precision.isSome then back else (back.reverse.dropWhile (· = '0')).reverse
  all.take 1 ++ (if back = [] ∧ ¬ d.alternate then [] else '.' :: back) ++
    'p' :: (if power < 0 then '-' else '+') :: Nat.toDigits 10 power.natAbs

def real (b : Binary) (d : Directive) (letter : Char) (r : Quantity) : List Char :=
  let cased (cs : List Char) := if letter.isUpper then cs.map Char.toUpper else cs
  match r with
  | .finite negative num den =>
    if letter.toLower = 'a' then
      d.pad d.zero (d.signOf negative ++ cased ['0', 'x']) (cased (hexadecimalText b d num den))
    else d.pad d.zero (d.signOf negative) (magnitude d letter num den)
  | .infinite negative => d.pad false (d.signOf negative) (cased "inf".toList)
  | .undefined negative => d.pad false (d.signOf negative) (cased "nan".toList)

end Directive

end JourneyMachine.Host.Format
