import JourneyMachine.Text.Characters

/-!
# Numerals

Numerals are signed 64-bit integers, written in arabic or roman digits. Roman digits stop at one
million; zero is `N`. Reading accepts any run of roman letters, where a letter before a greater one
is subtracted, and decimal digits whose value is cut off at the greatest numeral.
-/

namespace JourneyMachine.Numeral

def greatest : Nat := 9223372036854775807

/-- The nearest numeral to an integer. -/
def saturate (n : Int) : Int64 :=
  Int64.ofInt (max (-(greatest : Int) - 1) (min n greatest))

def arabic (n : Int64) : String :=
  if n.toInt < 0 then "-" ++ Nat.repr n.toInt.natAbs else Nat.repr n.toInt.natAbs

def romanWeights : List (Nat × String) :=
  [(1000, "M"), (900, "CM"), (500, "D"), (400, "CD"), (100, "C"), (90, "XC"), (50, "L"),
   (40, "XL"), (10, "X"), (9, "IX"), (5, "V"), (4, "IV"), (1, "I")]

def romanLimit : Nat := 1000000

/-- The roman digits of a natural number: each weight as often as it fits into what is left. -/
def romanDigits : List (Nat × String) → Nat → List Char
  | [], _ => []
  | (weight, digits) :: rest, n =>
    (List.replicate (n / weight) digits.toList).flatten ++ romanDigits rest (n % weight)

/-- A numeral in roman digits; beyond the limit, in arabic ones. -/
def roman (n : Int64) : String :=
  if n = 0 then "N"
  else if romanLimit < n.toInt.natAbs then arabic n
  else
    let digits := romanDigits romanWeights n.toInt.natAbs
    String.ofList (if n.toInt < 0 then '-' :: digits else digits)

def romanValue? : Char → Option Nat
  | 'I' => some 1
  | 'V' => some 5
  | 'X' => some 10
  | 'L' => some 50
  | 'C' => some 100
  | 'D' => some 500
  | 'M' => some 1000
  | _ => none

/-- Reads roman letters from the front: the value, and how many letters were read. A letter is
subtracted when the next character is a letter of greater value. -/
def readRoman (total : Int64) (letters : Nat) : List Char → Int64 × Nat
  | [] => (total, letters)
  | c :: rest =>
    match romanValue? c with
    | none => (total, letters)
    | some value =>
      let subtracted := (rest.head?.bind romanValue?).any (value < ·)
      let next := if subtracted then total.toInt - value else total.toInt + value
      readRoman (saturate next) (letters + 1) rest

/-- The roman numeral at the front of a text with the number of characters it takes. An `N` that
no letter or number follows is zero. -/
def parseRoman? (cs : List Char) : Option (Int64 × Nat) :=
  match cs with
  | 'N' :: rest => if rest.head?.any Text.isAlphanumeric then none else some (0, 1)
  | _ =>
    let (total, letters) := readRoman 0 0 cs
    if letters = 0 then none else some (total, letters)

/-- The letters that start a roman numeral. -/
def romanLetters : List Char := ['N', 'I', 'V', 'X', 'L', 'C', 'D', 'M']

/-- The decimal digits at the front, cut off at the greatest numeral. -/
def readDecimal (cs : List Char) : Nat :=
  (cs.takeWhile Char.isDigit).foldl
    (fun value c => min (value * 10 + (c.toNat - '0'.toNat)) greatest) 0

/-- The numeral at the front of a text, after white space: roman if it starts with a roman letter,
otherwise decimal with an optional sign. What cannot be read is zero. -/
def parse (text : String) : Int64 :=
  let cs := Text.trimStart text.toList
  if cs.head?.any (· ∈ romanLetters) then ((parseRoman? cs).map (·.1)).getD 0
  else
    match cs with
    | '-' :: rest => Int64.ofInt (-(readDecimal rest : Int))
    | '+' :: rest => Int64.ofInt (readDecimal rest)
    | _ => Int64.ofInt (readDecimal cs)

/-- An integer power that is reduced to 64 bits by repeated squaring, for exponents that a
32-bit word can hold. -/
def wrappingPower (base : Int64) (exponent : Nat) : Int64 :=
  if exponent = 0 then 1
  else
    let half := wrappingPower (base * base) (exponent / 2)
    if exponent % 2 = 1 then base * half else half
termination_by exponent
decreasing_by omega

/-- The greatest exponent that is told apart from greater ones. -/
def greatestExponent : Nat := 4294967295

/-- The power operator. Negative exponents truncate towards zero; exponents above the 32-bit range
are taken as its greatest member. -/
def power (base exponent : Int64) : Int64 :=
  if exponent = 0 then 1
  else if exponent.toInt < 0 then
    if base = 1 then 1
    else if base = -1 then if exponent.toInt % 2 = 0 then 1 else -1
    else 0
  else wrappingPower base (min exponent.toInt.toNat greatestExponent)

end JourneyMachine.Numeral
