import JourneyMachine.Host.Shell.Arithmetic
import JourneyMachine.Host.Shell.Basic
import JourneyMachine.Host.Shell.Fields

namespace JourneyMachine.Host.Shell

structure Context where
  /-- The word becomes any number of fields. -/
  full : Bool := false
  /-- Everything counts as quoted. -/
  quoted : Bool := false
  /-- The word stands inside another expansion, so that its own text may be split. -/
  inner : Bool := false
  /-- The word is an assignment, in which a tilde may also stand behind the first `=` and behind
  `:`. -/
  assignment : Bool := false
  /-- The first `=` of the assignment was passed. -/
  assigned : Bool := false

abbrev Substitute := Option Command → Act String

namespace Act

def newRegion : Act Nat := modifyGet fun s => (s.regions + 1, { s with regions := s.regions + 1 })

def optionLetters : Act String := do
  let s ← get
  return String.ofList (optionNames.reverse.filterMap fun (name, letter) =>
    if name ∈ s.options then letter else none)

def processNumber : Nat := 4711

/-- The value of a parameter. Parameters that are listed are divided by NUL characters where fields
are made of them. -/
def parameterValue (c : Context) (quoted : Bool) (name : String) : Act (Option (List Char)) := do
  let s ← get
  let listed (separator : Option Char) : List Char :=
    let divider := match separator with
      | some c => String.singleton c
      | none => ""
    (divider.intercalate s.parameters).toList
  match name with
  | "$" => return some (toString processNumber).toList
  | "?" => return some (toString s.status).toList
  | "#" => return some (toString s.parameters.length).toList
  | "!" => return s.background.map fun _ => (toString (processNumber + 1)).toList
  | "-" => return some (← optionLetters).toList
  | "@" | "*" =>
    if name = "@" && quoted && c.full then return some (listed (some '\x00'))
    if c.full && !quoted then
      return some (listed (some (if (← value? "IFS").isSome then '\x00' else ' ')))
    return some (listed (← separators).head?)
  | _ =>
    if name.toList.all Char.isDigit then
      let n := name.toNat?.getD 0
      if n = 0 then return some s.name.toList
      return (s.parameters[n - 1]?).map String.toList
    else return (← value? name).map String.toList

def cellsOf (quoted : Bool) (region : Option Region) (cs : List Char) : List Cell :=
  cs.map fun c => .char c quoted region

def regionCells (quoted dividers : Bool) (cs : List Char) : Act (List Cell) := do
  let region : Region := { number := ← newRegion, dividers }
  return .opening region :: cellsOf quoted (some region) cs

def valueCells (quoted : Bool) (cs : List Char) : Act (List Cell) :=
  if quoted then return cellsOf true none cs else regionCells false false cs

def parameterCells (quoted : Bool) (name : String) (cs : List Char) : Act (List Cell) := do
  if quoted && name = "@" && !(← get).parameters.isEmpty then regionCells true true cs
  else valueCells quoted cs

def unset {α : Type} (name reason : String) : Act α := fail (name ++ ": " ++ reason)

def skipExpansion : Nat → Word → Word
  | _, [] => []
  | 0, .parameterEnd :: rest => rest
  | depth, .parameterEnd :: rest => skipExpansion (depth - 1) rest
  | depth, .parameter operator empty _ :: rest =>
    skipExpansion (if operator = .value && !empty then depth else depth + 1) rest
  | depth, _ :: rest => skipExpansion depth rest

def home? (name : String) : Act (Option String) := do
  if name = "" then value? "HOME"
  else if name = "root" then return some "/root"
  else return none

/-- The name behind a tilde, and the marks that follow it; none if it is partly quoted. -/
def tildeName? (assignment : Bool) : List Char → Word → Option (String × Word)
  | name, .char c :: rest =>
    if c = '/' || (c = ':' && assignment) then
      some (String.ofList name.reverse, .char c :: rest)
    else tildeName? assignment (c :: name) rest
  | name, [] => some (String.ofList name.reverse, [])
  | name, .parameterEnd :: rest => some (String.ofList name.reverse, .parameterEnd :: rest)
  | _, _ => none

def tilde (assignment : Bool) (word : Word) : Act (List Cell × Word) := do
  match word with
  | .char '~' :: rest =>
    match tildeName? assignment [] rest with
    | none => return ([], word)
    | some (name, rest) =>
      match ← home? name with
      | none => return ([], word)
      | some home => return (cellsOf true none home.toList, rest)
  | _ => return ([], word)

/-- The output of a command without the line feeds at its end and without NUL characters. -/
def tidyOutput (text : String) : List Char :=
  ((text.toList.filter (· ≠ '\x00')).reverse.dropWhile (· = '\n')).reverse

def arithmetic (text : String) : Act Int := do
  let s ← get
  let value (name : String) : Option String := (s.bindings.lookup name).bind (·.value)
  let locked (name : String) : Bool := (s.bindings.lookup name).any (·.locked)
  match Arithmetic.evaluate text value locked with
  | .error message => fail message
  | .ok (n, assigned) =>
    assigned.forM fun (name, n) => assign name (toString n)
    return n

mutual

/-- Expands marks up to the end of the word or of the expansion that is open; the cells stand
backwards. `literal` is the region of the text just before, if it may be split. -/
def expandMarks (run : Substitute) :
    Nat → Context → Bool → Option Nat → List Cell → Word → Act (List Cell × Word)
  | 0, _, _, _, done, _ => return (done, [])
  | _ + 1, _, _, _, done, [] => return (done, [])
  | room + 1, c, inQuotes, literal, done, mark :: rest => do
    let quoted := c.quoted || inQuotes
    match mark with
    | .parameterEnd | .arithmeticEnd => return (done, rest)
    | .char ch =>
      if c.inner && !quoted then
        let number ← match literal with
          | some number => pure number
          | none => newRegion
        let cell := Cell.char ch false (some { number, dividers := false })
        expandMarks run room c inQuotes (some number) (cell :: done) rest
      else
        let done := Cell.char ch quoted none :: done
        if c.assignment && ((ch = '=' && !c.assigned) || ch = ':') then
          let (cells, rest) ← tilde true rest
          let c := { c with assigned := c.assigned || ch = '=' }
          expandMarks run room c inQuotes none (cells.reverse ++ done) rest
        else expandMarks run room c inQuotes none done rest
    | .escaped ch => expandMarks run room c inQuotes none (.char ch true none :: done) rest
    | .quote =>
      match inQuotes, rest with
      | false, .parameter .value false "@" :: .quote :: rest' =>
        let (cells, _) ← expandParameter run room { c with quoted := true } .value false "@" []
        expandMarks run room c inQuotes none (cells.reverse ++ done) rest'
      | _, _ => expandMarks run room c (!inQuotes) none (.mark :: done) rest
    | .parameter operator empty name =>
      let (cells, rest) ← expandParameter run room { c with quoted } operator empty name rest
      expandMarks run room c inQuotes none (cells.reverse ++ done) rest
    | .command body =>
      let output ← run body
      let cells ← valueCells quoted (tidyOutput output)
      expandMarks run room c inQuotes none (cells.reverse ++ done) rest
    | .arithmetic =>
      let (cells, rest) ← expandMarks run room { quoted := true } false none [] rest
      let n ← arithmetic (cellText cells.reverse)
      let cells ← valueCells quoted (toString n).toList
      expandMarks run room c inQuotes none (cells.reverse ++ .cut :: done) rest

/-- Expands a parameter; the marks that follow are those of its word, if it has one. -/
def expandParameter (run : Substitute) :
    Nat → Context → Operator → Bool → String → Word → Act (List Cell × Word)
  | 0, _, _, _, _, _ => return ([], [])
  | room + 1, c, operator, empty, name, rest => do
    let quoted := c.quoted
    if operator = .malformed then fail "Bad substitution"
    -- A length is that of one text, even where fields are made.
    let value ← parameterValue { c with full := c.full && operator ≠ .length } quoted name
    let missing := match value with
      | none => true
      | some cs => empty && cs.isEmpty
    let cs := value.getD []
    let word (c : Context) : Act (List Cell × Word) := do
      let (start, rest) ← tilde c.assignment rest
      let (cells, rest) ← expandMarks run room c false none start.reverse rest
      return (cells.reverse, rest)
    let demandValue : Act Unit := do
      if value.isNone && (← hasOption "nounset") && name ≠ "@" && name ≠ "*" then
        unset name "parameter not set"
    match operator with
    | .value =>
      demandValue
      let cells ← if value.isSome then parameterCells quoted name cs else pure []
      return (cells, if empty then skipExpansion 0 rest else rest)
    | .instead =>
      if missing then word { c with inner := true, assignment := false }
      else return (← parameterCells quoted name cs, skipExpansion 0 rest)
    | .provided =>
      if missing then return (← parameterCells quoted name [], skipExpansion 0 rest)
      else word { c with inner := true, assignment := false }
    | .demanded =>
      if missing then
        let (cells, _) ← word {}
        let text := cellText cells
        match rest with
        | .parameterEnd :: _ =>
          unset name (if empty then "parameter not set or null" else "parameter not set")
        | _ => unset name text
      else return (← parameterCells quoted name cs, skipExpansion 0 rest)
    | .assigned =>
      if missing then
        let (cells, rest) ← word {}
        assign name (cellText cells)
        let value ← parameterValue c quoted name
        let started := cells.takeWhile (·.char?.isNone)
        return (started.filter Cell.isOpening ++ .cut ::
          (← parameterCells quoted name (value.getD [])), rest)
      else return (← parameterCells quoted name cs, skipExpansion 0 rest)
    | .length =>
      demandValue
      return (← parameterCells quoted name (toString cs.length).toList, skipExpansion 0 rest)
    | .trimEnd longest =>
      demandValue
      if value.isNone then return ([], skipExpansion 0 rest)
      let (cells, rest) ← word {}
      let pattern := Glob.compile (cells.filterMap Cell.glyph?)
      return (.cut :: (← parameterCells quoted name (trimEnd longest pattern cs)), rest)
    | .trimStart longest =>
      demandValue
      if value.isNone then return ([], skipExpansion 0 rest)
      let (cells, rest) ← word {}
      let pattern := Glob.compile (cells.filterMap Cell.glyph?)
      return (.cut :: (← parameterCells quoted name (trimStart longest pattern cs)), rest)
    | .malformed => return ([], [])

end

def expandCells (run : Substitute) (c : Context) (word : Word) : Act (List Cell) := do
  let (start, rest) ← if c.quoted then pure ([], word) else tilde false word
  let (cells, _) ← expandMarks run (4 * word.length + 8) c false none start.reverse rest
  return cells.reverse

/-- The text of a word that is neither split nor matched with files. -/
def expandText (run : Substitute) (word : Word) : Act String := do
  return cellText (← expandCells run {} word)

def expandAssignment (run : Substitute) (word : Word) : Act String := do
  let (cells, _) ← expandMarks run (4 * word.length + 8) { assignment := true } false none [] word
  return cellText cells.reverse

def expandDocument (run : Substitute) (word : Word) : Act String := do
  return cellText (← expandCells run { quoted := true } word)

def expandPattern (run : Substitute) (word : Word) : Act (List Glob) := do
  return Glob.compile ((← expandCells run {} word).filterMap Cell.glyph?)

def expandFields (run : Substitute) (word : Word) : Act (List String) := do
  let cells ← expandCells run { full := true } word
  let fields := splitFields (← separators) none cells
  let s ← get
  return fields.flatMap fun field =>
    let glyphs := field.filterMap Cell.glyph?
    let names := if "noglob" ∈ s.options then none else expandNames s.system s.directory glyphs
    names.getD [glyphText glyphs]

end Act

end JourneyMachine.Host.Shell
