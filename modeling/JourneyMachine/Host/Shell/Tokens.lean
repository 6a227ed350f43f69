import JourneyMachine.Host.Shell.Words

namespace JourneyMachine.Host.Shell

namespace Read

/-- Reads the arrows of a redirection; the number in front of them may be given. -/
def arrows (number : Option Nat) : Read Unit := do
  let (natural, direction, strips) ←
    if ← skip '>' then
      if ← skip '>' then pure (1, Direction.append, false)
      else if ← skip '|' then pure (1, Direction.overwrite, false)
      else if ← skip '&' then pure (1, Direction.copyOutput, false)
      else pure (1, Direction.output, false)
    else
      discard next
      if ← skip '<' then
        let strips ← skip '-'
        pure (0, Direction.document 0 true, strips)
      else if ← skip '&' then pure (0, Direction.copyInput, false)
      else if ← skip '>' then pure (0, Direction.both, false)
      else pure (0, Direction.input, false)
  modify fun r => { r with redirection := (number.getD natural, direction, strips) }

def skipBlanks : Nat → Read Unit
  | 0 => return
  | room + 1 => do
    match ← peek with
    | some ' ' | some '\t' =>
      advance
      skipBlanks room
    | some '#' =>
      modify fun r => { r with rest := r.rest.dropWhile (· ≠ '\n') }
      skipBlanks room
    | _ => return

def found (token : Token) : Read Token := do
  modify fun r => { r with last := token }
  return token

def wordToken (nested : Nested) : Read Token := do
  let d ← wordLoop nested none plenty { level := { mode := .base } }
  finishWord false d
  let word := d.marks.reverse
  let c ← peek
  let number? : Option (Option Nat) :=
    match plainText? word with
    | some [] => some none
    | some [digit] => if digit.isDigit then some (some (digit.toNat - 48)) else none
    | _ => none
  if (c = some '<' || c = some '>') && !d.quoted then
    match number? with
    | some number =>
      arrows number
      return ← found .redirection
    | none => pure ()
  modify fun r => { r with word, quoted := d.quoted }
  found .word

def bareToken (nested : Nested) : Read Token := do
  if (← get).pushed then
    modify fun r => { r with pushed := false }
    return (← get).last
  skipBlanks plenty
  match ← peek with
  | none => found .endOfFile
  | some '\n' =>
    advance
    found .newline
  | some '&' =>
    advance
    found (.operator (if ← skip '&' then "&&" else "&"))
  | some '|' =>
    advance
    found (.operator (if ← skip '|' then "||" else "|"))
  | some ';' =>
    advance
    found (.operator (if ← skip ';' then ";;" else ";"))
  | some '(' =>
    advance
    found (.operator "(")
  | some ')' =>
    advance
    found (.operator ")")
  | some _ => wordToken nested

def document (nested : Nested) (p : Pending) : Read Unit := do
  let ends := some (p.delimiter, p.stripsTabs)
  let level : Level := if p.expands then { mode := .double, double := true } else { mode := .single }
  let d : Draft := { level }
  let d ← if ← documentEnds ends then pure d else wordLoop nested ends plenty d
  finishWord true d
  modify fun r => { r with documents := r.documents.setIfInBounds p.number d.marks.reverse }

def documents (nested : Nested) : Read Unit := do
  let pending := (← get).pending
  modify fun r => { r with pending := [] }
  pending.forM (document nested)

def skipNewlines (nested : Nested) : Nat → Token → Read Token
  | 0, token => return token
  | room + 1, token => do
    if token = .newline then
      documents nested
      skipNewlines nested room (← bareToken nested)
    else return token

def alias? (r : Reader) : Option (String × String) := do
  let name := String.ofList (← plainText? r.word)
  let value ← r.aliases.lookup name
  let left := r.rest.length
  if r.expanding.any fun (after, used) => used = name && after ≤ left then none
  else some (name, value)

def tokenWith (nested : Nested) (seeksKeywords seeksAliases skipsNewlines : Bool) :
    Nat → Read Token
  | 0 => return .endOfFile
  | room + 1 => do
    let first ← bareToken nested
    let t ← if skipsNewlines then Read.skipNewlines nested plenty first else pure first
    let r ← get
    if t ≠ .word || r.quoted then return t
    match (plainText? r.word).map String.ofList with
    | some text =>
      if seeksKeywords && text ∈ keywords then found (.keyword text)
      else if !seeksAliases || r.aliases.isEmpty then return t
      else
        match alias? r with
        | none => return t
        | some (name, value) =>
          let left := r.rest.length
          modify fun r =>
            { r with
              rest := value.toList ++ r.rest
              expanding := (left, name) :: r.expanding.filter fun (after, _) => after ≤ left }
          tokenWith nested seeksKeywords seeksAliases skipsNewlines room
    | none => return t

def token (nested : Nested) : Read Token := do
  let r ← get
  modify fun r =>
    { r with seeksKeywords := false, seeksAliases := false, skipsNewlines := false }
  tokenWith nested r.seeksKeywords r.seeksAliases r.skipsNewlines plenty

def expecting (keywords aliases newlines : Bool) : Read Unit :=
  modify fun r =>
    { r with seeksKeywords := keywords, seeksAliases := aliases, skipsNewlines := newlines }

def pushBack : Read Unit := modify fun r => { r with pushed := true }

def target (nested : Nested) : Read Redirection := do
  let (number, direction, strips) := (← get).redirection
  let isDocument := match direction with
    | .document _ _ => true
    | _ => false
  modify fun r => { r with seeksDelimiter := isDocument }
  let t ← token nested
  modify fun r => { r with seeksDelimiter := false }
  if t ≠ .word then unexpected none
  let r ← get
  if isDocument then
    let delimiter := r.word.filterMap fun
      | .char c | .escaped c => some c
      | _ => none
    let slot := r.documents.size
    modify fun r =>
      { r with
        documents := r.documents.push []
        pending := r.pending ++
          [{ number := slot, delimiter, stripsTabs := strips, expands := !r.quoted }] }
    return .mk number (.document slot (!r.quoted)) []
  else return .mk number direction r.word

def redirections (nested : Nested) : Nat → List Redirection → Read (List Redirection)
  | 0, done => return done.reverse
  | room + 1, done => do
    if (← token nested) = .redirection then
      let r ← target nested
      redirections nested room (r :: done)
    else
      pushBack
      return done.reverse

end Read

end JourneyMachine.Host.Shell
