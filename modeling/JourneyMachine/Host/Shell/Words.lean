import JourneyMachine.Host.Shell.Reader

/-!
# Words

A word is read by a small automaton with a stack: one level for each change between quoted,
unquoted and arithmetic text inside expansions. The text of a document is read the same way. The
commands inside a word are read by a function that is given.
-/

namespace JourneyMachine.Host.Shell

inductive Mode where
  | base
  | double
  | single
  | arithmetic
deriving DecidableEq, Repr

structure Level where
  mode : Mode
  /-- Opened by an expansion, with whose end it ends. -/
  own : Bool := false
  /-- Text counts as quoted by double quotes. -/
  double : Bool := false
  /-- Double quotes are open inside an expansion. -/
  inner : Bool := false
  /-- Open expansions. -/
  braces : Nat := 0
  /-- Those opened inside double quotes. -/
  doubleBraces : Nat := 0
  parens : Nat := 0
deriving DecidableEq, Repr

/-- A word under construction; the marks stand backwards. -/
structure Draft where
  marks : Word := []
  quoted : Bool := false
  level : Level
  below : List Level := []

namespace Draft

def push (d : Draft) (mark : Mark) : Draft := { d with marks := mark :: d.marks }

def pop (d : Draft) : Draft :=
  match d.below with
  | level :: below => { d with level, below }
  | [] => d

def enter (d : Draft) (level : Level) : Draft := { d with level, below := d.level :: d.below }

end Draft

/-- The parts of the grammar that words and compound commands contain. -/
structure Nested where
  /-- Commands up to the end of a line (1), at least one (0), or any number (2). -/
  list : Nat → Read (Option Command)
  command : Read Command

def isDelicate (c : Char) : Bool := c ∈ ['!', '*', '?', '[', '=', '~', ':', '/', '-', ']', '\\']

def isSpecialParameter (c : Char) : Bool := c ∈ ['!', '#', '?', '*', '@', '-', '$'] || c.isDigit

namespace Read

/-- The characters at the front that satisfy a condition, at most `limit`. -/
def takeWhile (p : Char → Bool) : Nat → List Char → Read (List Char)
  | 0, done => return done.reverse
  | limit + 1, done => do
    match ← peek with
    | some c =>
      if p c then
        advance
        takeWhile p limit (c :: done)
      else return done.reverse
    | none => return done.reverse

def peekSecond : Read (Option Char) := do
  discard peek
  let r ← get
  return (splice r.rest.tail 0).1.head?

/-- The name of a parameter in braces or without, and whether its length is asked for; none if
there is no name. -/
def parameterName (braced : Bool) : Read (Option (String × Bool)) := do
  let named : Read (Option String) := do
    match ← peek with
    | some c =>
      if isNameStart c then return some (String.ofList (← takeWhile isNameChar plenty []))
      else if c.isDigit then
        return some (String.ofList (← takeWhile Char.isDigit (if braced then plenty else 1) []))
      else return none
    | none => return none
  match ← named with
  | some name => return some (name, false)
  | none =>
    match ← peek with
    | some '#' =>
      if !braced then
        advance
        return some ("#", false)
      advance
      match ← named with
      | some name => return some (name, true)
      | none =>
        match ← peek, ← peekSecond with
        | some c, some '\x7d' =>
          if c = '\x7d' then return some ("#", false)
          else
            advance
            return if isSpecialParameter c then some (c.toString, true) else none
        | _, _ => return some ("#", false)
    | some '\x7d' | none => return none
    | some c =>
      dropUncounted
      return if isSpecialParameter c then some (c.toString, false) else none

/-- The operator behind a name in braces: what it does, whether an empty value counts as missing,
and whether the expansion ends with it. -/
def parameterOperator : Read (Operator × Bool × Bool) := do
  let simple (empty : Bool) : Read (Operator × Bool × Bool) := do
    let c ← peek
    dropUncounted
    match c with
    | some '\x7d' => return (.value, empty, !empty)
    | some '-' => return (.instead, empty, false)
    | some '+' => return (.provided, empty, false)
    | some '?' => return (.demanded, empty, false)
    | some '=' => return (.assigned, empty, false)
    | _ => return (.malformed, empty, false)
  match ← peek with
  | some ':' =>
    advance
    simple true
  | some '%' =>
    advance
    return (.trimEnd (← skip '%'), false, false)
  | some '#' =>
    advance
    return (.trimStart (← skip '#'), false, false)
  | _ => simple false

def openExpansion (d : Draft) (operator : Operator) : Draft :=
  let level := d.level
  let mode := match operator with
    | .trimEnd _ | .trimStart _ => .base
    | _ => if level.mode = .arithmetic then .double else level.mode
  let d :=
    if mode ≠ level.mode ∨ level.inner then
      d.enter { mode, own := true, double := mode ≠ .base }
    else d
  let level := d.level
  { d with
    level := { level with
      braces := level.braces + 1
      doubleBraces := level.doubleBraces + (if level.double then 1 else 0) } }

def dollar (nested : Nested) (d : Draft) : Read Draft := do
  if (← get).seeksDelimiter then return d.push (.char '$')
  match ← peek with
  | some '(' =>
    advance
    if ← skip '(' then
      return (d.push .arithmetic).enter { mode := .arithmetic, double := true }
    let saved := (← get).pending
    modify fun r => { r with pending := [] }
    let body ← nested.list 2
    -- The closing bracket is read as a token of its own.
    let r ← get
    if r.last ≠ .operator ")" then unexpected (some (.operator ")"))
    modify fun r => { r with pushed := false, pending := saved }
    return d.push (.command body)
  | some c =>
    if c = '\x7b' then
      advance
      match ← parameterName true with
      | none =>
        -- What stands in place of the name stays.
        return openExpansion (d.push (.parameter .malformed false "")) .malformed
      | some (name, true) =>
        let operator : Operator := if (← peek) = some '\x7d' then .length else .malformed
        return openExpansion (d.push (.parameter operator false name)) operator
      | some (name, false) =>
        let (operator, empty, ends) ← parameterOperator
        let d := d.push (.parameter operator empty name)
        return if ends then d else openExpansion d operator
    else if isNameStart c || isSpecialParameter c then
      match ← parameterName false with
      | some (name, _) => return d.push (.parameter .value false name)
      | none => return d.push (.char '$')
    else return d.push (.char '$')
  | none => return d.push (.char '$')

/-- The text between backquotes, in which some backslashes are dropped. -/
def backquoted (double : Bool) : Nat → List Char → Read (List Char)
  | 0, done => return done.reverse
  | room + 1, done => do
    match ← next with
    | none => flaw "EOF in backquote substitution"
    | some '\x60' => return done.reverse
    | some '\\' =>
      let c ← peekRaw
      advance
      match c with
      | none => flaw "EOF in backquote substitution"
      | some c =>
        if c ∈ ['\\', '\x60', '$'] || (double && c = '"') then backquoted double room (c :: done)
        else backquoted double room (c :: '\\' :: done)
    | some c => backquoted double room (c :: done)

def within (text : List Char) (body : Read (Option Command)) : Read (Option Command) := do
  let outer ← get
  set { outer with rest := text, line := 1, pushed := false, pending := [] }
  let command ← body
  modify fun r =>
    { r with rest := outer.rest, line := outer.line, pushed := false, pending := outer.pending }
  return command

/-- Whether the text of a document ends here, in which case its end mark is passed over. -/
def documentEnds : Option (List Char × Bool) → Read Bool
  | none => return false
  | some (delimiter, stripsTabs) => do
    if stripsTabs then modify fun r => { r with rest := r.rest.dropWhile (· = '\t') }
    let rest := (← get).rest
    if delimiter.isPrefixOf rest then
      match rest.drop delimiter.length with
      | [] =>
        modify fun r => { r with rest := [], line := r.line + 1 }
        return true
      | '\n' :: rest =>
        modify fun r => { r with rest, line := r.line + 1 }
        return true
      | _ => return false
    else return false

def toggleDouble (document : Bool) (d : Draft) : Draft :=
  let level := d.level
  let d := if 0 < level.braces then { d with level := { level with inner := !level.inner } } else d
  if document then d else d.push .quote

/-- The character behind a backslash, which is kept in double quotes unless it hides something. -/
def backslash (document : Bool) (d : Draft) : Read Draft := do
  let level := d.level
  let c ← peekRaw
  advance
  match c with
  | none => return d.push (.escaped '\\')
  | some c =>
    let kept := level.double && !(c ∈ ['\\', '\x60', '$']) &&
      (c ≠ '"' || (document && level.braces = 0)) && (c ≠ '\x7d' || level.braces = 0)
    let d := if kept then d.push (.escaped '\\') else d
    return { d.push (.escaped c) with quoted := true }

/-- The word from here on. With `document`, the end mark and whether leading tabs go, the text of a
document is read up to its end mark. -/
def wordLoop (nested : Nested) (document : Option (List Char × Bool)) : Nat → Draft → Read Draft
  | 0, d => return d
  | room + 1, d => do
    let level := d.level
    let c? ← if level.mode = .single then peekRaw else peek
    match c? with
    | none => return d
    | some c =>
      if c = '\n' then
        if level.mode = .base && level.braces = 0 then return d
        advance
        let d := d.push (.char c)
        if ← documentEnds document then return d
        wordLoop nested document room d
      else
        let plain := d.push (.char c)
        let kept := d.push (if isDelicate c && (document.isNone || level.double) then .escaped c
          else .char c)
        let closed : Draft :=
          if document.isSome && level.braces = 0 then plain
          else
            let d := if level.doubleBraces = 0 then
                { d with level := { level with mode := .base, double := false } }
              else d
            let d := { d with quoted := true }
            if c = '"' then toggleDouble document.isSome d
            else if document.isSome then d else d.push .quote
        match level.mode with
        | .single =>
          advance
          wordLoop nested document room (if c = '\x27' then closed else kept)
        | mode =>
          match c with
          | '\\' =>
            advance
            wordLoop nested document room (← backslash document.isSome d)
          | '$' =>
            advance
            wordLoop nested document room (← dollar nested d)
          | '\x60' =>
            advance
            if (← get).seeksDelimiter then wordLoop nested document room plain
            else
              let text ← backquoted level.double plenty []
              let body ← within text (nested.list 2)
              wordLoop nested document room (d.push (.command body))
          | '\x7d' =>
            advance
            if !level.inner && 0 < level.braces then
              let d := { d with level := { level with braces := level.braces - 1 } }
              let d :=
                if level.braces = 1 && level.own then d.pop
                else if 0 < level.doubleBraces then
                  { d with level := { d.level with doubleBraces := level.doubleBraces - 1 } }
                else d
              wordLoop nested document room (d.push .parameterEnd)
            else wordLoop nested document room plain
          | _ =>
            match mode with
            | .double =>
              advance
              wordLoop nested document room (if c = '"' then closed else kept)
            | .arithmetic =>
              advance
              if c = '(' then
                wordLoop nested document room
                  { plain with level := { level with parens := level.parens + 1 } }
              else if c = ')' then
                if 0 < level.parens then
                  wordLoop nested document room
                    { plain with level := { level with parens := level.parens - 1 } }
                else if ← skip ')' then
                  wordLoop nested document room (d.pop.push .arithmeticEnd)
                else wordLoop nested document room plain
              else wordLoop nested document room plain
            | _ =>
              if c = '\x27' then
                advance
                let d := { d with level := { level with mode := .single } }
                wordLoop nested document room (if document.isSome then d else d.push .quote)
              else if c = '"' then
                advance
                let d := { d with level := { level with mode := .double, double := true } }
                wordLoop nested document room (toggleDouble document.isSome d)
              else if c ∈ ['<', '>', '(', ')', ';', '&', '|', ' ', '\t'] && level.braces = 0 then
                return d
              else
                advance
                wordLoop nested document room plain

def finishWord (document : Bool) (d : Draft) : Read Unit := do
  if d.level.mode = .arithmetic then flaw "Missing '))'"
  if d.level.mode ≠ .base && !document then flaw "Unterminated quoted string"
  if d.level.braces ≠ 0 then flaw "Missing '\x7d'"

end Read

end JourneyMachine.Host.Shell
