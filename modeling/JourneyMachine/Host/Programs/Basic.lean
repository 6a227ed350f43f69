import JourneyMachine.Host.System

namespace JourneyMachine.Host

structure Process where
  descriptors : Descriptors := []
  directory : List String := Entry.workplace
  /-- The environment: names and values in octets. -/
  environment : List (String × String) := []

/-- Whether words are too long for a program: a single one, or all of them together. -/
def exceedsLimit (words : List String) (size : String → Nat) : Bool :=
  (words.any fun word => 131072 ≤ size word) ||
    2097152 < words.foldl (fun total word => total + size word + 9) 0

abbrev Program := ReaderT Process (StateM System)

namespace Program

def write (number : Nat) (text : String) : Program (Option Trouble) := do
  match (← read).descriptors.find? number with
  | none => return some .badDescriptor
  | some d =>
    match (← get).write d (bytesOf text) with
    | .error trouble => return some trouble
    | .ok system =>
      set system
      return none

def complain (text : String) : Program Unit := do
  discard (write 2 (text ++ "\n"))

def readAll (d : Descriptor) : Program (Except Trouble (List UInt8)) := do
  match (← get).read d none with
  | .error trouble => return .error trouble
  | .ok (bytes, system) =>
    set system
    return .ok bytes

def openInput (name : String) : Program (Except Trouble Descriptor) := do
  let process ← read
  match (← get).openName process.directory process.descriptors (ofOctets name)
      { readable := true } with
  | .error trouble => return .error trouble
  | .ok (d, system) =>
    set system
    return .ok d

/-- Writes the whole output of a program, and complains about one that takes nothing. -/
def emit (program text : String) (status : Nat) : Program Nat := do
  match ← write 1 text with
  | none => return status
  | some trouble =>
    complain s!"{program}: write error: {trouble.reason}"
    return 1

end Program

def controlLetter? (c : Char) : Option Char :=
  match c.toNat with
  | 7 => some 'a'
  | 8 => some 'b'
  | 9 => some 't'
  | 10 => some 'n'
  | 11 => some 'v'
  | 12 => some 'f'
  | 13 => some 'r'
  | _ => none

def threeOctal (n : Nat) : List Char :=
  [n / 64, n / 8 % 8, n % 8].map fun d => Char.ofNat (48 + d)

def hiddenEscape? (c : Char) : Option (List Char) :=
  match controlLetter? c with
  | some letter => some ['\\', letter]
  | none =>
    if c.toNat < 32 ∨ 127 ≤ c.toNat then some ('\\' :: threeOctal c.toNat) else none

/-- Whether a character makes a name read as more than one plain word. The position matters for
those that only mean something at the start. -/
def isSuspicious (first alone : Bool) (c : Char) : Bool :=
  (hiddenEscape? c).isSome || c ∈ " !\"$&()*;<=>?[\\^\x60|\x27".toList ||
    (first && c ∈ ['#', '~']) || (alone && c ∈ ['\x7b', '\x7d'])

/-- The inside of single quotes, which are left for a run of hidden characters and around a single
quote. `hidden` tells that the last character was hidden. -/
def insideQuotes : Bool → List Char → List Char
  | _, [] => ['\x27']
  | hidden, c :: rest =>
    match hiddenEscape? c with
    | some escape =>
      (if hidden then [] else ['\x27', '$', '\x27']) ++ escape ++ insideQuotes true rest
    | none =>
      if c = '\x27' then ['\x27', '\\', '\x27', '\x27'] ++ insideQuotes false rest
      else (if hidden then ['\x27', '\x27'] else []) ++ c :: insideQuotes false rest

/-- A name that a shell reads as one word: in quotes unless it is plain, and in double quotes if only
a single quote stands in the way. With `strict`, a colon needs quotes too. -/
def quoteForShell (strict : Bool) (name : String) : String :=
  let cs := name.toList
  let suspicious := cs.zipIdx.any (fun (c, i) => isSuspicious (i = 0) (cs.length = 1) c) ||
    (strict && cs.contains ':')
  if cs = [] then "\x27\x27"
  else if !suspicious then name
  else if cs.contains '\x27' ∧
      cs.all (fun c => c.isAlphanum || c ∈ "\x27 %+,-./:@]_".toList) then
    "\"" ++ name ++ "\""
  else
    let twice := cs.contains '\x27' && cs.any fun c => (hiddenEscape? c).isSome
    (if twice then "\x27\x27" else "") ++ String.ofList ('\x27' :: insideQuotes false cs)

def quoteName (name : String) : String := quoteForShell true name

/-- A word as messages about values show it: always in single quotes, with backslashes before what
could be mistaken. -/
def quoteWord (word : String) : String :=
  let cs := word.toList.flatMap fun c =>
    if c = '\\' || c = '\x27' then ['\\', c] else (hiddenEscape? c).getD [c]
  String.ofList ('\x27' :: cs ++ ['\x27'])

end JourneyMachine.Host
