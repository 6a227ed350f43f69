import JourneyMachine.Host.Programs.Basic

namespace JourneyMachine.Host.Cat

structure Options where
  number : Bool := false
  /-- Empty lines have no number. -/
  numberNonempty : Bool := false
  squeeze : Bool := false
  ends : Bool := false
  tabs : Bool := false
  hidden : Bool := false
deriving DecidableEq, Repr

/-- What reading the words gave: options and names, or a complaint. -/
inductive Reading where
  | names (options : Options) (names : List String)
  | refused (message : String)

def letter? (o : Options) : Char → Option Options
  | 'A' => some { o with hidden := true, ends := true, tabs := true }
  | 'b' => some { o with number := true, numberNonempty := true }
  | 'e' => some { o with hidden := true, ends := true }
  | 'E' => some { o with ends := true }
  | 'n' => some { o with number := true }
  | 's' => some { o with squeeze := true }
  | 't' => some { o with hidden := true, tabs := true }
  | 'T' => some { o with tabs := true }
  | 'u' => some o
  | 'v' => some { o with hidden := true }
  | _ => none

/-- The long names of the options with their letters, in the order in which they are tried. -/
def longNames : List (String × Option Char) :=
  [("number-nonblank", some 'b'), ("number", some 'n'), ("squeeze-blank", some 's'),
   ("show-nonprinting", some 'v'), ("show-ends", some 'E'), ("show-tabs", some 'T'),
   ("show-all", some 'A'), ("help", none), ("version", none)]

/-- The long options that a name may stand for: the one spelled out, or all that start with it. -/
def candidates (name : String) : List (String × Option Char) :=
  match longNames.find? fun (long, _) => long = name with
  | some found => [found]
  | none => longNames.filter fun (long, _) => name.toList.isPrefixOf long.toList

def advice (self : String) : String := "\nTry '" ++ self ++ " --help' for more information."

def letters (o : Options) : List Char → Except String Options
  | [] => .ok o
  | c :: rest =>
    match letter? o c with
    | some o => letters o rest
    | none => .error s!"invalid option -- '{c}'"

def long (o : Options) (text : List Char) : Except String Options :=
  let name := String.ofList (text.takeWhile (· ≠ '='))
  let whole := String.ofList text
  match candidates name with
  | [] => .error s!"unrecognized option '--{whole}'"
  | [(full, letter)] =>
    if text.contains '=' then .error s!"option '--{full}' doesn't allow an argument"
    else
      match letter.bind (letter? o) with
      | some o => .ok o
      | none => .error ""
  | several =>
    let names := String.join (several.map fun (full, _) => s!" '--{full}'")
    .error s!"option '--{whole}' is ambiguous; possibilities:{names}"

def reading : Options → List String → List String → Reading
  | o, names, [] => .names o names.reverse
  | o, names, word :: rest =>
    match word.toList with
    | ['-', '-'] => .names o (names.reverse ++ rest)
    | '-' :: '-' :: name =>
      match long o name with
      | .ok o => reading o names rest
      | .error message => .refused message
    | '-' :: c :: cs =>
      match letters o (c :: cs) with
      | .ok o => reading o names rest
      | .error message => .refused message
    | _ => reading o (word :: names) rest

structure Pen where
  /-- How many line feeds in a row were seen; none inside a line. -/
  feeds : Option Nat := some 0
  /-- The number of the last numbered line. -/
  line : Nat := 0
  /-- A carriage return was read last and not yet written. -/
  returned : Bool := false
deriving DecidableEq, Repr

def label (n : Nat) : List Char :=
  let digits := Nat.toDigits 10 n
  List.replicate (6 - digits.length) ' ' ++ digits ++ ['\t']

def reveal (tabs : Bool) (c : Char) : List Char :=
  let n := c.toNat
  if c = '\t' ∧ ¬ tabs then [c]
  else if n < 32 then ['^', Char.ofNat (n + 64)]
  else if n < 127 then [c]
  else if n = 127 then ['^', '?']
  else if n < 160 then ['M', '-', '^', Char.ofNat (n - 64)]
  else if n < 255 then ['M', '-', Char.ofNat (n - 128)]
  else ['M', '-', '^', '?']

/-- Writes the octets of one file. `done` is what was written so far, backwards. -/
def shape (o : Options) : Pen → List Char → List Char → Pen × List Char
  | pen, done, [] => (pen, done)
  | pen, done, '\n' :: rest =>
    let feeds := match pen.feeds with
      | none => 0
      | some n => min 2 (n + 1)
    if feeds = 2 ∧ o.squeeze then shape o { pen with feeds := some feeds } done rest
    else
      let numbered := 0 < feeds && o.number && !o.numberNonempty
      let line := if numbered then pen.line + 1 else pen.line
      let done := if numbered then (label line).reverse ++ done else done
      let done := if pen.returned then (if o.ends then ['M', '^'] else ['\r']) ++ done else done
      let done := if o.ends then '$' :: done else done
      shape o { feeds := some feeds, line, returned := false } ('\n' :: done) rest
  | pen, done, c :: rest =>
    let done := if pen.returned then '\r' :: done else done
    let numbered := pen.feeds.isSome && o.number
    let line := if numbered then pen.line + 1 else pen.line
    let done := if numbered then (label line).reverse ++ done else done
    let pen : Pen := { feeds := none, line, returned := false }
    if o.hidden then shape o pen ((reveal o.tabs c).reverse ++ done) rest
    else if c = '\t' ∧ o.tabs then shape o pen ('I' :: '^' :: done) rest
    else if c = '\r' ∧ o.ends then shape o { pen with returned := true } done rest
    else shape o pen (c :: done) rest

/-- Whether reading a file would only feed on what is written to it: the output goes to the same
file, to a place behind the one that is read. -/
def feedsOnItself (s : System) (input : Descriptor) (output : Option Descriptor) : Bool :=
  match s.stream input.stream, output.map fun d => s.stream d.stream with
  | .file source, some (.file target) =>
    match source.entry, target.entry with
    | .file a, .file b =>
      let place := if target.access.appends then (s.files.content b).size else target.position
      a = b && source.position < place
    | _, _ => false
  | _, _ => false

def one (self : String) (o : Options) (pen : Pen) (name : String) (d : Descriptor) :
    Program (Pen × Bool) := do
  if feedsOnItself (← get) d ((← read).descriptors.find? 1) then
    Program.complain s!"{self}: {quoteName name}: input file is output file"
    return (pen, false)
  match ← Program.readAll d with
  | .error trouble =>
    Program.complain s!"{self}: {quoteName name}: {trouble.reason}"
    return (pen, false)
  | .ok bytes =>
    let (pen, done) :=
      if o = {} then (pen, (octets bytes).toList.reverse)
      else shape o pen [] (octets bytes).toList
    match ← Program.write 1 (String.ofList done.reverse) with
    | none => return (pen, true)
    | some trouble =>
      Program.complain s!"{self}: write error: {trouble.reason}"
      return (pen, false)

def all (self : String) (o : Options) : Pen → Bool → List String → Program (Pen × Bool)
  | pen, fine, [] => return (pen, fine)
  | pen, fine, name :: rest => do
    if name = "-" then
      match (← read).descriptors.find? 0 with
      | none =>
        Program.complain (self ++ ": -: Bad file descriptor")
        all self o pen false rest
      | some d =>
        let (pen, good) ← one self o pen name d
        all self o pen (fine && good) rest
    else
      match ← Program.openInput name with
      | .error trouble =>
        Program.complain s!"{self}: {quoteName name}: {trouble.reason}"
        all self o pen false rest
      | .ok d =>
        let (pen, good) ← one self o pen name d
        all self o pen (fine && good) rest

def run (self : String) (words : List String) : Program Nat := do
  match reading {} [] words with
  | .refused message =>
    Program.complain (self ++ ": " ++ message ++ advice self)
    return 1
  | .names o names =>
    if ((← read).descriptors.find? 1).isNone then
      Program.complain (self ++ ": standard output: Bad file descriptor")
      return 1
    let (pen, fine) ← all self o {} true (if names = [] then ["-"] else names)
    if pen.returned then discard (Program.write 1 "\r")
    if ((← read).descriptors.find? 0).isNone && (names = [] || "-" ∈ names) then
      Program.complain (self ++ ": closing standard input: Bad file descriptor")
    return if fine then 0 else 1

end JourneyMachine.Host.Cat
