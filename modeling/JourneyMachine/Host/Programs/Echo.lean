import JourneyMachine.Host.Programs.Basic

namespace JourneyMachine.Host.Echo

/-- The options in force: whether the line feed is left out and whether escapes are replaced. -/
structure Options where
  bare : Bool := false
  escapes : Bool := false
deriving DecidableEq, Repr

def Options.letters (o : Options) : List Char → Options
  | [] => o
  | c :: rest =>
    letters
      (if c = 'n' then { o with bare := true }
       else { o with escapes := c = 'e' }) rest

def options : Options → List String → Options × List String
  | o, [] => (o, [])
  | o, word :: rest =>
    match word.toList with
    | '-' :: c :: cs =>
      if (c :: cs).all (· ∈ ['n', 'e', 'E']) then options (o.letters (c :: cs)) rest
      else (o, word :: rest)
    | _ => (o, word :: rest)

def digit? (base : Nat) (c : Char) : Option Nat :=
  let value :=
    if '0' ≤ c ∧ c ≤ '9' then c.toNat - 48
    else if 'a' ≤ c ∧ c ≤ 'f' then c.toNat - 87
    else if 'A' ≤ c ∧ c ≤ 'F' then c.toNat - 55
    else base
  if value < base then some value else none

/-- The digits at the front, at most `count`, as a number, and what follows them. -/
def digits (base : Nat) : Nat → Nat → List Char → Nat × List Char
  | 0, value, cs => (value, cs)
  | _ + 1, value, [] => (value, [])
  | count + 1, value, c :: rest =>
    match digit? base c with
    | some d => digits base count (value * base + d) rest
    | none => (value, c :: rest)

def octet (n : Nat) : Char := Char.ofNat (n % 256)

def escape? : Char → Option Char
  | 'a' => some '\x07'
  | 'b' => some '\x08'
  | 'e' => some '\x1b'
  | 'f' => some '\x0c'
  | 'n' => some '\n'
  | 'r' => some '\r'
  | 't' => some '\t'
  | 'v' => some '\x0b'
  | '\\' => some '\\'
  | _ => none

/-- Replaces the escapes of a text. The flag tells whether the output goes on, which `\c` ends.
Each round uses up a character, so the length of the text bounds the rounds. -/
def unescape : Nat → List Char → List Char → List Char × Bool
  | 0, done, _ => (done.reverse, true)
  | _ + 1, done, [] => (done.reverse, true)
  | room + 1, done, '\\' :: c :: rest =>
    match escape? c with
    | some e => unescape room (e :: done) rest
    | none =>
      if c = 'c' then (done.reverse, false)
      else if c = 'x' then
        match rest.head?.bind (digit? 16) with
        | some _ =>
          let (value, rest) := digits 16 2 0 rest
          unescape room (octet value :: done) rest
        | none => unescape room ('x' :: '\\' :: done) rest
      else if c = '0' then
        let (value, rest) := digits 8 3 0 rest
        unescape room (octet value :: done) rest
      else if (digit? 8 c).isSome then
        let (value, rest) := digits 8 3 0 (c :: rest)
        unescape room (octet value :: done) rest
      else unescape room (c :: '\\' :: done) rest
  | room + 1, done, c :: rest => unescape room (c :: done) rest

def output (words : List String) : String :=
  let (o, words) := options {} words
  let text := " ".intercalate words
  let (cs, goesOn) := if o.escapes then unescape text.length [] text.toList else (text.toList, true)
  String.ofList (if o.bare || !goesOn then cs else cs ++ ['\n'])

end JourneyMachine.Host.Echo
