import JourneyMachine.Host.Shell.Grammar
import JourneyMachine.Host.System

namespace JourneyMachine.Host.Shell

abbrev Glyph := Char × Bool

inductive Member where
  | range (low high : Char)
  | named (name : String)
deriving DecidableEq, Repr

inductive Glob where
  | literal (c : Char)
  | one
  | any
  | among (negated : Bool) (members : List Member)
deriving DecidableEq, Repr

namespace Glob

def classes : List (String × (Char → Bool)) :=
  [("alnum", Char.isAlphanum), ("alpha", Char.isAlpha),
   ("blank", fun c => c = ' ' ∨ c = '\t'), ("cntrl", fun c => c.toNat < 32 ∨ c.toNat = 127),
   ("digit", Char.isDigit), ("graph", fun c => 32 < c.toNat ∧ c.toNat < 127),
   ("lower", Char.isLower), ("print", fun c => 32 ≤ c.toNat ∧ c.toNat < 127),
   ("punct", fun c => 32 < c.toNat ∧ c.toNat < 127 ∧ ¬ c.isAlphanum),
   ("space", fun c => c = ' ' ∨ (9 ≤ c.toNat ∧ c.toNat ≤ 13)), ("upper", Char.isUpper),
   ("xdigit", fun c => c.isDigit || ('a' ≤ c && c ≤ 'f') || ('A' ≤ c && c ≤ 'F'))]

def Member.has (c : Char) : Member → Bool
  | .range low high => low ≤ c ∧ c ≤ high
  | .named name => ((classes.lookup name).map (· c)).getD false

def className? (glyphs : List Glyph) : Option (String × List Glyph) :=
  classes.findSome? fun (name, _) =>
    let spelled := (":" ++ name ++ ":]").toList.map fun c => (c, false)
    if spelled.isPrefixOf glyphs then some (name, glyphs.drop spelled.length) else none

/-- The parts of a set up to its closing bracket, and what follows; none if it is not closed. The
first character is never the closing bracket. -/
def members : Nat → Bool → List Member → List Glyph → Option (List Member × List Glyph)
  | 0, _, _, _ => none
  | _ + 1, _, _, [] => none
  | room + 1, first, done, (c, quoted) :: rest =>
    if c = ']' ∧ ¬ quoted ∧ ¬ first then some (done.reverse, rest)
    else
      match if c = '[' ∧ ¬ quoted then className? rest else none with
      | some (name, rest) => members room false (.named name :: done) rest
      | none =>
        match rest with
        | ('-', false) :: (high, q) :: rest' =>
          if high = ']' ∧ ¬ q then members room false (.range c c :: done) rest
          else members room false (.range c high :: done) rest'
        | _ => members room false (.range c c :: done) rest

def set? (glyphs : List Glyph) : Option (Glob × List Glyph) :=
  let (negated, body) := match glyphs with
    | ('!', false) :: rest => (true, rest)
    | _ => (false, glyphs)
  (members (body.length + 1) true [] body).map fun (parts, rest) => (.among negated parts, rest)

/-- Reads a pattern. Each round uses up a character. -/
def compileWithin : Nat → List Glyph → List Glob
  | 0, _ => []
  | _ + 1, [] => []
  | room + 1, (c, quoted) :: rest =>
    if quoted then .literal c :: compileWithin room rest
    else if c = '*' then .any :: compileWithin room rest
    else if c = '?' then .one :: compileWithin room rest
    else if c = '[' then
      match set? rest with
      | some (glob, rest) => glob :: compileWithin room rest
      | none => .literal c :: compileWithin room rest
    else .literal c :: compileWithin room rest

def compile (glyphs : List Glyph) : List Glob := compileWithin glyphs.length glyphs

/-- Whether an element other than `any` accepts a character. -/
def accepts (c : Char) : Glob → Bool
  | literal d => c = d
  | one | any => true
  | among negated parts => parts.any (Member.has c) != negated

/-- What may be left to fit: a leading `any` may also stand for nothing. -/
def choices : List Glob → List (List Glob)
  | .any :: rest => (.any :: rest) :: choices rest
  | pattern => [pattern]

def after (c : Char) : List Glob → List (List Glob)
  | [] => []
  | .any :: rest => [.any :: rest]
  | glob :: rest => if glob.accepts c then choices rest else []

/-- What may be left to fit after a character, where several patterns may have been left before it.
All of them are ends of one pattern, so their lengths tell them apart. -/
def advance (left : List (List Glob)) (c : Char) : List (List Glob) :=
  (left.flatMap fun pattern => (after c pattern).flatMap choices).eraseDupsBy
    fun a b => a.length == b.length

def isDone (left : List (List Glob)) : Bool := left.any List.isEmpty

def fits (pattern : List Glob) (cs : List Char) : Bool :=
  isDone (cs.foldl advance (choices pattern))

structure Search where
  left : List (List Glob)
  /-- How much of the text was read. -/
  length : Nat := 0
  shortest : Option Nat := none
  longest : Option Nat := none

def Search.noted (s : Search) : Search :=
  if isDone s.left then
    { s with shortest := s.shortest.or (some s.length), longest := some s.length }
  else s

def search (pattern : List Glob) (cs : List Char) : Search :=
  let start : Search := { left := choices pattern }
  cs.foldl (fun s c => { s with left := advance s.left c, length := s.length + 1 }.noted)
    start.noted

/-- The length of the shortest or longest start that a pattern fits. -/
def startLength? (longest : Bool) (pattern : List Glob) (cs : List Char) : Option Nat :=
  let s := search pattern cs
  if longest then s.longest else s.shortest

end Glob

/-- The stretches of a text between NUL characters, which divide listed parameters. -/
def stretches (cs : List Char) : List (List Char) :=
  ((String.ofList cs).splitOn "\x00").map String.toList

/-- A text without the shortest or longest start that a pattern fits. Only the first of several
stretches is looked at; one that fits as a whole may take the others with it. -/
def trimStart (longest : Bool) (pattern : List Glob) (cs : List Char) : List Char :=
  let first := cs.takeWhile (· ≠ '\x00')
  match Glob.startLength? longest pattern first with
  | none => cs
  | some n => if longest && n = first.length then [] else cs.drop n

/-- Stretches that stand backwards, from the first one on that has an end to be cut off. `cut` says
how many of its characters go. -/
def cutLast (cut : List Char → Option Nat) : List (List Char) → Option (List (List Char))
  | [] => none
  | last :: before =>
    match cut last with
    | some n => some ((last.reverse.drop n).reverse :: before)
    | none => cutLast cut before

/-- A text without the shortest or longest end that a pattern fits. What follows a stretch whose end
is cut off goes with it. The longest end is looked for in the first stretch only, the shortest one
from the last stretch on. -/
def trimEnd (longest : Bool) (pattern : List Glob) (cs : List Char) : List Char :=
  let cut (stretch : List Char) : Option Nat :=
    Glob.startLength? longest pattern.reverse stretch.reverse
  let list := stretches cs
  match cutLast cut (if longest then list.take 1 else list.reverse) with
  | none => cs
  | some kept => ['\x00'].intercalate kept.reverse

/-- Whether glyphs have anything that could stand for several names. -/
def hasWild (glyphs : List Glyph) : Bool :=
  (Glob.compile glyphs).any fun
    | .literal _ => false
    | _ => true

def splitSlashes : List Glyph → List Glyph → List (List Glyph)
  | current, [] => [current.reverse]
  | current, (c, quoted) :: rest =>
    if c = '/' then current.reverse :: splitSlashes [] rest
    else splitSlashes ((c, quoted) :: current) rest

def glyphText (glyphs : List Glyph) : String := String.ofList (glyphs.map Prod.fst)

/-- The names that a pattern stands for from a directory on. `typed` is what has been found so
far. -/
def pathNames (s : System) (here : List String) : String → List (List Glyph) → List String
  | _, [] => []
  | typed, segment :: rest =>
    let found (name : String) : Bool := (s.entry? here (ofOctets name)).isSome
    if hasWild segment then
      let directory := match s.resolve here (ofOctets (if typed = "" then "." else typed)) with
        | .ok (path, _) => path
        | .error _ => []
      let dotted := segment.head?.map Prod.fst = some '.'
      let names := (s.entries directory).map toOctets ++ [".", ".."]
      let pattern := Glob.compile segment
      let chosen := names.filter fun name =>
        (dotted || name.toList.head? ≠ some '.') && Glob.fits pattern name.toList
      chosen.flatMap fun name =>
        match rest with
        | [] => [typed ++ name]
        | _ =>
          if s.entry? here (ofOctets (typed ++ name)) = some .directory then
            pathNames s here (typed ++ name ++ "/") rest
          else []
    else
      let typed := typed ++ glyphText segment
      match rest with
      | [] => if found typed then [typed] else []
      | _ => pathNames s here (typed ++ "/") rest

def octetsBefore : List Char → List Char → Bool
  | [], _ => true
  | _ :: _, [] => false
  | a :: as, b :: bs => a < b || (a = b && octetsBefore as bs)

/-- The names that a word stands for, in order; none if it stands for no file. -/
def expandNames (s : System) (here : List String) (glyphs : List Glyph) : Option (List String) :=
  if hasWild glyphs then
    match pathNames s here "" (splitSlashes [] glyphs) with
    | [] => none
    | names => some (names.mergeSort fun a b => octetsBefore a.toList b.toList)
  else none

end JourneyMachine.Host.Shell
