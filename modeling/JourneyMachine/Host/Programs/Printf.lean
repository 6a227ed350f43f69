import JourneyMachine.Host.Programs.Basic
import JourneyMachine.Host.Programs.Format

namespace JourneyMachine.Host.Printf

open Format (Directive)
open Echo (digit? digits octet)

inductive Escape where
  | chars (cs : List Char) (rest : List Char)
  /-- Nothing more is written. -/
  | stop
  | refused (message : String)

/-- What two kinds of `printf` differ in. -/
structure Dialect where
  /-- Reads the escape behind a backslash; the flag tells that it stands in a word. -/
  escape : Bool → List Char → Escape
  notNumeric : String → String
  notWhole : String → String
  outOfRange : String → String
  /-- A number out of range is complained about before what follows it. -/
  rangeFirst : Bool
  /-- Complains about a directive; the flag tells that the format ends before its letter. -/
  badDirective : Bool → String → String
  /-- How fractions are kept. -/
  binary : Number.Binary
  /-- Flags that change nothing. -/
  idleFlags : List Char
  /-- Letters that may stand before that of a directive without a meaning. -/
  sizes : List Char
  /-- Whether a directive may have a letter behind its flags, width and precision. -/
  permits : List Char → Char → Bool
  /-- Brings a width or precision that is a word into range; what stays out of it is refused. -/
  narrow : Int → Int
  /-- A quote alone is no character, and what follows a character is complained about. -/
  strictQuotes : Bool

/-- The escapes of the builtin: octal digits, and single letters. In a word octal digits may follow
a zero, and `\c` ends everything. -/
def builtinEscape (inWord : Bool) (cs : List Char) : Escape :=
  match cs with
  | [] => .chars ['\\'] []
  | c :: rest =>
    if c = 'c' ∧ inWord then .stop
    else
      match Echo.escape? c with
      | some e => .chars [e] rest
      | none =>
        let start := if inWord ∧ c = '0' ∧ (rest.head?.bind (digit? 8)).isSome then rest else cs
        if (digit? 8 c).isSome then
          let (value, rest) := digits 8 3 0 start
          .chars [octet value] rest
        else .chars ['\\'] cs

def builtin : Dialect where
  escape := builtinEscape
  notNumeric text := text ++ ": expected numeric value"
  notWhole text := text ++ ": not completely converted"
  outOfRange text := text ++ ": Numerical result out of range"
  badDirective ends text :=
    if ends then "missing format character" else text ++ ": invalid directive"
  rangeFirst := false
  binary := .double
  idleFlags := []
  sizes := []
  permits _ letter := letter ≠ 'q'
  narrow n := Int.bmod n 4294967296
  strictQuotes := false

/-- Exactly as many hexadecimal digits as asked for, and what follows them. -/
def exactDigits? (count : Nat) (cs : List Char) : Option (Nat × List Char) :=
  let front := cs.take count
  if front.length = count ∧ front.all fun c => (digit? 16 c).isSome then
    some (digits 16 count 0 cs)
  else none

def hexadecimalDigits (count n : Nat) : List Char :=
  let cs := Nat.toDigits 16 n
  List.replicate (count - cs.length) '0' ++ cs

/-- Whether a number may be given as that of a character: controls, surrogates, and the characters
that every format can hold as they are may not. -/
def isNameable (n : Nat) : Bool :=
  (0x9f < n || n = 0x24 || n = 0x40 || n = 0x60) && !(0xd800 ≤ n && n ≤ 0xdfff)

/-- The character of a number. Those outside of plain text are written by their number. -/
def numbered (n : Nat) : List Char :=
  if n < 128 then [octet n]
  else if n < 65536 then '\\' :: 'u' :: (hexadecimalDigits 4 n).map Char.toUpper
  else '\\' :: 'U' :: (hexadecimalDigits 8 n).map Char.toUpper

def programEscape (inWord : Bool) (cs : List Char) : Escape :=
  match cs with
  | [] => .chars ['\\'] []
  | c :: rest =>
    match Echo.escape? c with
    | some e => .chars [e] rest
    | none =>
      if c = 'c' then .stop
      else if c = '"' then .chars ['"'] rest
      else if c = 'x' then
        match rest.head?.bind (digit? 16) with
        | none => .refused "missing hexadecimal number in escape"
        | some _ =>
          let (value, rest) := digits 16 2 0 rest
          .chars [octet value] rest
      else if (digit? 8 c).isSome then
        let start := if inWord ∧ c = '0' then rest else cs
        let (value, rest) := digits 8 3 0 start
        .chars [octet value] rest
      else if c = 'u' ∨ c = 'U' then
        let count := if c = 'u' then 4 else 8
        match exactDigits? count rest with
        | none => .refused "missing hexadecimal number in escape"
        | some (n, rest) =>
          if isNameable n then .chars (numbered n) rest
          else
            .refused ("invalid universal character name " ++
              String.ofList ('\\' :: c :: hexadecimalDigits count n))
      else .chars ['\\', c] rest

/-- Whether the program takes a directive: flags and a point each leave some letters out, and
escaped and quoted words stand alone. -/
def programPermits (spec : List Char) (letter : Char) : Bool :=
  let flags := spec.takeWhile (· ∈ ['#', '-', '+', ' ', '0', '\x27', 'I'])
  if letter = 'b' ∨ letter = 'q' then spec = []
  else
    !(flags.contains '#' && letter ∈ ['c', 'd', 'i', 's', 'u']) &&
    !(flags.contains '0' && letter ∈ ['c', 's']) &&
    !((flags.contains '\x27' || flags.contains 'I') &&
      letter ∈ ['a', 'A', 'c', 'e', 'E', 'o', 's', 'x', 'X']) &&
    !(spec.contains '.' && letter = 'c')

def program : Dialect where
  escape := programEscape
  notNumeric text := quoteWord text ++ ": expected a numeric value"
  notWhole text := quoteWord text ++ ": value not completely converted"
  outOfRange text := quoteWord text ++ ": Numerical result out of range"
  rangeFirst := true
  badDirective _ text := text ++ ": invalid conversion specification"
  binary := .extended
  idleFlags := ['\x27', 'I']
  sizes := ['l', 'L', 'h', 'j', 't', 'z']
  permits := programPermits
  narrow := id
  strictQuotes := true

structure Job where
  /-- What was written, backwards. -/
  written : List Char := []
  words : List String
  /-- Complaints, the last one first. -/
  notes : List String := []
  failed : Bool := false

inductive Finish where
  | through
  | stopped
  | refused (message : String)
deriving DecidableEq, Repr

namespace Job

def write (j : Job) (cs : List Char) : Job := { j with written := cs.reverse ++ j.written }

def take (j : Job) : String × Job := (j.words.head?.getD "", { j with words := j.words.tail })

def note (j : Job) (message : String) : Job :=
  { j with notes := message :: j.notes, failed := true }

def remark (j : Job) (message : String) : Job := { j with notes := message :: j.notes }

def checked (d : Dialect) (j : Job) (text : String) (rest : Option (List Char)) (fits : Bool) :
    Job :=
  match rest with
  | none => if text = "" then j else j.note (d.notNumeric text)
  | some [] => if fits then j else j.note (d.outOfRange text)
  | some _ => if d.rangeFirst && !fits then j.note (d.outOfRange text) else j.note (d.notWhole text)

def quotedCharacter? (d : Dialect) (text : String) : Option (Nat × List Char) :=
  match text.toList with
  | '\x27' :: c :: rest | '"' :: c :: rest => some (c.toNat, rest)
  | ['\x27'] | ['"'] => if d.strictQuotes then none else some (0, [])
  | _ => none

def afterQuoted (d : Dialect) (j : Job) (rest : List Char) : Job :=
  if d.strictQuotes ∧ rest ≠ [] then
    j.remark ("warning: " ++ String.ofList rest ++
      ": character(s) following character constant have been ignored")
  else j

/-- The next word as a whole number; with a sign it is brought into range, without one it wraps. -/
def takeNumber (d : Dialect) (signed : Bool) (j : Job) : Int × Job :=
  let (text, j) := j.take
  match quotedCharacter? d text with
  | some (n, rest) => (n, j.afterQuoted d rest)
  | none =>
    match Number.whole? true text.toList with
    | none => (0, j.checked d text none true)
    | some (n, rest) =>
      if signed then
        let fit := Number.clamp n
        (fit, j.checked d text (some rest) (fit = n))
      else
        let fits := n.natAbs < 18446744073709551616
        (if fits then n else 18446744073709551615, j.checked d text (some rest) fits)

def takeReal (d : Dialect) (j : Job) : Number.Quantity × Job :=
  let (text, j) := j.take
  match quotedCharacter? d text with
  | some (n, rest) => (.finite false n 1, j.afterQuoted d rest)
  | none =>
    match Number.real? text.toList with
    | none => (.finite false 0 1, j.checked d text none true)
    | some (r, rest) =>
      let (r, fits) := Number.rounded d.binary r
      (r, j.checked d text (some rest) fits)

/-- The escapes of a word replaced, and whether the output goes on. -/
def unescape (d : Dialect) : Nat → List Char → List Char → List Char × Bool
  | 0, done, _ => (done.reverse, true)
  | _ + 1, done, [] => (done.reverse, true)
  | room + 1, done, '\\' :: rest =>
    match d.escape true rest with
    | .chars cs rest => unescape d room (cs.reverse ++ done) rest
    | .stop => (done.reverse, false)
    | .refused _ => (done.reverse, false)
  | room + 1, done, c :: rest => unescape d room (c :: done) rest

end Job

def flags (dialect : Dialect) : Directive → List Char → Directive × List Char
  | d, [] => (d, [])
  | d, c :: rest =>
    match d.flag? c with
    | some d => flags dialect d rest
    | none => if c ∈ dialect.idleFlags then flags dialect d rest else (d, c :: rest)

/-- A directive that is being read, the job, and what follows; or why the job ends. -/
abbrev Step := Except (Job × String) (Directive × Job × List Char)

def width (dialect : Dialect) (d : Directive) (j : Job) (cs : List Char) : Step :=
  match cs with
  | '*' :: rest =>
    let text := j.take.1
    let (n, j) := j.takeNumber dialect true
    let n := dialect.narrow n
    if n < -2147483648 ∨ 2147483647 < n then
      .error (j, "invalid field width: " ++ quoteWord text)
    else .ok (d.setWidth n, j, rest)
  | _ =>
    let (n, _, rest) := Number.digitsOf 10 0 0 cs
    .ok ({ d with width := n }, j, rest)

def precision (dialect : Dialect) (d : Directive) (j : Job) (cs : List Char) : Step :=
  match cs with
  | '.' :: '*' :: rest =>
    let text := j.take.1
    let (n, j) := j.takeNumber dialect true
    let n := dialect.narrow n
    if 2147483647 < n then .error (j, "invalid precision: " ++ quoteWord text)
    else .ok ({ d with precision := if n < 0 then none else some n.toNat }, j, rest)
  | '.' :: rest =>
    let (n, _, rest) := Number.digitsOf 10 0 0 rest
    .ok ({ d with precision := some n }, j, rest)
  | _ => .ok (d, j, cs)

def specification (dialect : Dialect) (j : Job) (cs : List Char) : Step := do
  let (d, cs) := flags dialect {} cs
  let (d, j, cs) ← width dialect d j cs
  let (d, j, cs) ← precision dialect d j cs
  return (d, j, cs.dropWhile (· ∈ dialect.sizes))

/-- Writes the next word the way a directive asks for; none if its letter is not known. -/
def direct (dialect : Dialect) (d : Directive) (letter : Char) (j : Job) : Option (Job × Bool) :=
  if letter = 's' then
    let (text, j) := j.take
    some (j.write (d.text text.toList), true)
  else if letter = 'b' then
    let (text, j) := j.take
    let (cs, goesOn) := Job.unescape dialect text.length [] text.toList
    some (j.write (d.text cs), goesOn)
  else if letter = 'q' then
    match j.words with
    | [] => some (j, true)
    | text :: words => some ({ j with words }.write (d.text (quoteForShell false text).toList), true)
  else if letter = 'c' then
    let (text, j) := j.take
    some (j.write (d.character [text.toList.head?.getD '\x00']), true)
  else if letter ∈ ['d', 'i'] then
    let (n, j) := j.takeNumber dialect true
    some (j.write (d.signed n), true)
  else if letter ∈ ['o', 'u', 'x', 'X'] then
    let (n, j) := j.takeNumber dialect false
    some (j.write (d.unsigned letter (n % 18446744073709551616).toNat), true)
  else if letter ∈ ['a', 'A', 'e', 'E', 'f', 'F', 'g', 'G'] then
    let (r, j) := j.takeReal dialect
    some (j.write (Directive.real dialect.binary d letter r), true)
  else none

/-- Goes through a format once. Each round uses up a character. -/
def pass (dialect : Dialect) : Nat → List Char → Job → Job × Finish
  | 0, _, j => (j, .through)
  | _ + 1, [], j => (j, .through)
  | room + 1, '\\' :: rest, j =>
    match dialect.escape false rest with
    | .chars cs rest => pass dialect room rest (j.write cs)
    | .stop => (j, .stopped)
    | .refused message => (j, .refused message)
  | room + 1, '%' :: '%' :: rest, j => pass dialect room rest (j.write ['%'])
  | room + 1, '%' :: start, j =>
    match specification dialect j start with
    | .error (j, message) => (j, .refused message)
    | .ok (d, j, after) =>
      let spec := start.take (start.length - after.length)
      match after with
      | [] => (j, .refused (dialect.badDirective true (String.ofList ('%' :: spec))))
      | letter :: rest =>
        match if dialect.permits spec letter then direct dialect d letter j else none with
        | none =>
          (j, .refused (dialect.badDirective false (String.ofList ('%' :: spec ++ [letter]))))
        | some (j, true) => pass dialect room rest j
        | some (j, false) => (j, .stopped)
  | room + 1, c :: rest, j => pass dialect room rest (j.write [c])

def passes (dialect : Dialect) (format : List Char) : Nat → Job → Job × Finish
  | 0, j => (j, .through)
  | room + 1, j =>
    let (j', finish) := pass dialect (format.length + 1) format j
    if finish = .through ∧ j'.words ≠ [] ∧ j'.words.length < j.words.length then
      passes dialect format room j'
    else (j', finish)

def all (dialect : Dialect) (format : String) (words : List String) : Job × Finish :=
  passes dialect format.toList (words.length + 1) { words }

def run (self : String) (words : List String) : Program Nat := do
  let words := if words.head? = some "--" then words.tail else words
  match words with
  | [] =>
    Program.complain (self ++ ": missing operand\nTry '" ++ self ++
      " --help' for more information.")
    return 1
  | format :: words =>
    let (j, finish) := all program format words
    j.notes.reverse.forM fun note => Program.complain (self ++ ": " ++ note)
    let status ← Program.emit self (String.ofList j.written.reverse)
      (if j.failed ∧ finish ≠ .stopped then 1 else 0)
    match finish with
    | .refused message =>
      Program.complain (self ++ ": " ++ message)
      return 1
    | .through =>
      match j.words with
      | word :: _ =>
        Program.complain (self ++ ": warning: ignoring excess arguments, starting with " ++
          quoteWord word)
        return status
      | [] => return status
    | .stopped => return status

end JourneyMachine.Host.Printf
