import JourneyMachine.Host.Shell.Pattern

/-!
# Fields

An expanded word is a sequence of cells. Some stretches of it, the regions, may be split at
separators; a field that would be empty only counts if something in it was quoted.
-/

namespace JourneyMachine.Host.Shell

structure Region where
  number : Nat
  /-- Only NUL characters, which divide parameters, split it. -/
  dividers : Bool
deriving DecidableEq, Repr

inductive Cell where
  /-- A quote stood here. -/
  | mark
  /-- A region starts here, which may have no characters. -/
  | opening (region : Region)
  /-- Regions without characters that start here are given up. -/
  | cut
  | char (c : Char) (quoted : Bool) (region : Option Region)
deriving DecidableEq, Repr

namespace Cell

def region? : Cell → Option Region
  | mark | cut => none
  | opening region => some region
  | char _ _ region => region

def char? : Cell → Option Char
  | mark | opening _ | cut => none
  | char c _ _ => some c

def glyph? : Cell → Option Glyph
  | mark | opening _ | cut => none
  | char c quoted _ => some (c, quoted)

def isOpening : Cell → Bool
  | opening _ => true
  | _ => false

end Cell

/-- Adds a cell to others that stand backwards. A cut gives up the regions that were just started,
but for the first one of the word. -/
def addCell (done : List Cell) (cell : Cell) : List Cell :=
  if cell = .cut then
    let rest := done.dropWhile Cell.isOpening
    if rest.any fun cell => cell.region?.isSome then rest
    else ((done.takeWhile Cell.isOpening).getLast?.map (· :: rest)).getD rest
  else cell :: done

def settle (cells : List Cell) : List Cell := (cells.foldl addCell []).reverse

def cellText (cells : List Cell) : String := String.ofList (cells.filterMap Cell.char?)

def blankSeparators : List Char := [' ', '\t', '\n']

structure Splitting where
  /-- The fields that are complete, the last one first. -/
  fields : List (List Cell) := []
  /-- The cells of the field under construction, backwards. -/
  current : List Cell := []
  region : Option Region := none
  /-- The region before was divided by NUL characters only. -/
  afterDividers : Bool := false
  /-- The last separator was a blank, so that more blanks and one other separator belong to it. -/
  blank : Bool := false
  /-- How many more fields there may be; none if there is no limit. -/
  left : Option Nat := none
  /-- The last field as it is without the separators at its end. -/
  trimmed : Option (List Cell) := none

namespace Splitting

/-- Whether a character separates fields in a region. NUL characters always do. -/
def separates (separators : List Char) (region : Region) (c : Char) : Bool :=
  c = '\x00' || (!region.dividers && separators.contains c)

def push (s : Splitting) (cell : Cell) : Splitting := { s with current := cell :: s.current }

def enter (s : Splitting) (region : Region) : Splitting :=
  if s.region = some region then s
  else
    { s with
      afterDividers := s.region.any (·.dividers)
      region := some region
      blank := false }

/-- Takes a cell of a region when only one more field may follow: separators at its end are not
part of it, unless a further field would start behind them. -/
def takeLast (s : Splitting) (separator blank : Bool) (cell : Cell) : Splitting :=
  if blank then { s.push cell with trimmed := s.trimmed.or (some s.current) }
  else
    { s.push cell with
      trimmed := if separator && s.blank then s.trimmed else none
      blank := false }

def takeSplit (separators : List Char) (s : Splitting) (region : Region) (c : Char) (cell : Cell) :
    Splitting :=
  let separator := separates separators region c
  let blank := separator && (c = '\x00' || blankSeparators.contains c)
  if s.left = some 0 then s.takeLast separator blank cell
  else if s.blank then
    -- The field starts behind this separator, or with this character.
    if separator then
      { s with current := [], blank := blank }
    else { s with current := [cell], blank := false }
  else if separator then
    let blankNow := if s.afterDividers || region.dividers then s.blank else blank
    if s.current = [] && blankNow then { s with blank := false }
    else
      match s.left with
      | some 1 => { s.push cell with left := some 0, blank := blankNow, trimmed := some s.current }
      | left =>
        { s with
          fields := s.current.reverse :: s.fields
          current := []
          blank := blankNow
          left := left.map (· - 1) }
  else s.push cell

def take (separators : List Char) (s : Splitting) (cell : Cell) : Splitting :=
  match cell with
  | .mark => s.push cell
  | .opening region => s.enter region
  | .cut => s
  | .char c _ region? =>
    match region? with
    | none => s.push cell
    | some region => takeSplit separators (s.enter region) region c cell

def finish (s : Splitting) : List (List Cell) :=
  if s.region.any (·.dividers) then (s.current.reverse :: s.fields).reverse
  else
    let last := s.trimmed.getD s.current
    (if last = [] then s.fields else last.reverse :: s.fields).reverse

end Splitting

/-- The fields of an expanded word, at most as many as the limit says. -/
def splitFields (separators : List Char) (limit : Option Nat) (cells : List Cell) :
    List (List Cell) :=
  let start : Splitting := { left := limit }
  ((settle cells).foldl (Splitting.take separators) start).finish

end JourneyMachine.Host.Shell
