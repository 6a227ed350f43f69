import JourneyMachine.Host.Shell.Tokens

namespace JourneyMachine.Host.Shell

namespace Read

/-- A simple command under construction; everything stands backwards. -/
structure Simple where
  assignments : List Word := []
  words : List Word := []
  redirections : List Redirection := []

def simpleLoop (nested : Nested) (line : Nat) : Nat → Simple → Read Command
  | 0, _ => flaw "command too long"
  | room + 1, s => do
    let leading := s.words.isEmpty
    let finished : Command :=
      .simple line s.assignments.reverse s.words.reverse s.redirections.reverse
    expecting false leading false
    match ← token nested with
    | .word =>
      let word := (← get).word
      if leading && (assignmentName? word).isSome then
        simpleLoop nested line room { s with assignments := word :: s.assignments }
      else simpleLoop nested line room { s with words := word :: s.words }
    | .redirection =>
      let r ← target nested
      simpleLoop nested line room { s with redirections := r :: s.redirections }
    | .operator "(" =>
      match s.words, s.assignments, s.redirections with
      | [name], [], [] =>
        if (← token nested) ≠ .operator ")" then unexpected (some (.operator ")"))
        match plainText? name with
        | some cs =>
          if isName cs && !(String.ofList cs ∈ specialBuiltins) then
            expecting true true true
            let line := (← get).line
            return .define line (String.ofList cs) (← nested.command)
          else flaw "Bad function name"
        | none => flaw "Bad function name"
      | _, _, _ =>
        pushBack
        return finished
    | _ =>
      pushBack
      return finished

def demand (nested : Nested) (wanted : Token) : Read Unit := do
  if (← token nested) ≠ wanted then unexpected (some wanted)

def body (nested : Nested) : Read Command :=
  return (← nested.list 0).getD .nothing

def alternatives (nested : Nested) : Nat → Read (Option Command)
  | 0 => return none
  | room + 1 => do
    match ← token nested with
    | .keyword "elif" =>
      let condition ← body nested
      demand nested (.keyword "then")
      let positive ← body nested
      return some (.choice condition positive (← alternatives nested room))
    | .keyword "else" => return some (← body nested)
    | _ =>
      pushBack
      return none

def words (nested : Nested) : Nat → List Word → Read (List Word)
  | 0, done => return done.reverse
  | room + 1, done => do
    if (← token nested) = .word then words nested room ((← get).word :: done)
    else return done.reverse

def patterns (nested : Nested) : Nat → List Word → Read (List Word)
  | 0, done => return done.reverse
  | room + 1, done => do
    let done := (← get).word :: done
    if (← token nested) = .operator "|" then
      discard (token nested)
      patterns nested room done
    else return done.reverse

def cases (nested : Nested) :
    Nat → List (List Word × Option Command) → Read (List (List Word × Option Command))
  | 0, done => return done.reverse
  | room + 1, done => do
    expecting true false true
    match ← token nested with
    | .keyword "esac" => return done.reverse
    | first =>
      if first = .operator "(" then discard (token nested)
      let alternatives ← patterns nested plenty []
      if (← get).last ≠ .operator ")" then unexpected (some (.operator ")"))
      let body ← nested.list 2
      let done := (alternatives, body) :: done
      expecting true false true
      match ← token nested with
      | .keyword "esac" => return done.reverse
      | .operator ";;" => cases nested room done
      | _ => unexpected (some (.operator ";;"))

def redirectedBy (nested : Nested) (line : Nat) (command : Command) : Read Command := do
  expecting true true false
  match ← redirections nested plenty [] with
  | [] => return command
  | list =>
    match command with
    | .subshell line inner _ => return .subshell line inner list
    | _ => return .redirected line command list

def command (nested : Nested) : Read Command := do
  let line := (← get).line
  let closing (wanted : Token) (command : Command) : Read Command := do
    demand nested wanted
    redirectedBy nested line command
  match ← token nested with
  | .keyword "if" =>
    let condition ← body nested
    demand nested (.keyword "then")
    let positive ← body nested
    let negative ← alternatives nested plenty
    closing (.keyword "fi") (.choice condition positive negative)
  | .keyword "while" =>
    let condition ← body nested
    demand nested (.keyword "do")
    let inner ← body nested
    closing (.keyword "done") (.loop true condition inner)
  | .keyword "until" =>
    let condition ← body nested
    demand nested (.keyword "do")
    let inner ← body nested
    closing (.keyword "done") (.loop false condition inner)
  | .keyword "for" =>
    let t ← token nested
    let r ← get
    let name := ((plainText? r.word).getD [])
    if t ≠ .word || r.quoted || !isName name then flaw "Bad for loop variable"
    expecting true true true
    let list ←
      if (← token nested) = .keyword "in" then
        let list ← words nested plenty []
        let last := (← get).last
        if last ≠ .newline && last ≠ .operator ";" then unexpected none
        pure list
      else
        if (← get).last ≠ .operator ";" then pushBack
        pure [[Mark.quote, .parameter .value false "@", .quote]]
    expecting true true true
    demand nested (.keyword "do")
    let inner ← body nested
    closing (.keyword "done") (.each line (String.ofList name) list inner)
  | .keyword "case" =>
    if (← token nested) ≠ .word then unexpected (some .word)
    let word := (← get).word
    expecting true true true
    demand nested (.keyword "in")
    let list ← cases nested plenty []
    redirectedBy nested line (.select line word list)
  | .operator "(" =>
    let inner ← body nested
    closing (.operator ")") (.subshell line inner [])
  | .keyword "\x7b" =>
    let inner ← body nested
    closing (.keyword "\x7d") inner
  | .word | .redirection =>
    pushBack
    simpleLoop nested (← get).line plenty {}
  | _ => unexpected none

def stages (nested : Nested) : Nat → List Command → Read (List Command)
  | 0, done => return done.reverse
  | room + 1, done => do
    if (← token nested) = .operator "|" then
      expecting true true true
      let stage ← command nested
      stages nested room (stage :: done)
    else
      pushBack
      return done.reverse

def pipeline (nested : Nested) : Read Command := do
  let negated ← do
    if (← token nested) = .keyword "!" then
      expecting true true false
      pure true
    else
      pushBack
      pure false
  let first ← command nested
  let command ←
    match ← stages nested plenty [first] with
    | [single] => pure single
    | list => pure (.pipeline list)
  return if negated then .negation command else command

def joined (nested : Nested) : Nat → Command → Read Command
  | 0, command => return command
  | room + 1, command => do
    match ← token nested with
    | .operator "&&" =>
      expecting true true true
      let second ← pipeline nested
      joined nested room (.both command second)
    | .operator "||" =>
      expecting true true true
      let second ← pipeline nested
      joined nested room (.either command second)
    | _ =>
      pushBack
      return command

def endsList (t : Token) : Bool :=
  t ∈ [.endOfFile, .newline, .operator ")", .operator ";;", .keyword "do", .keyword "done",
    .keyword "elif", .keyword "else", .keyword "esac", .keyword "fi", .keyword "then",
    .keyword "\x7d"]

/-- Reads a list. The flag is as for `Nested.list`; `started` tells that a command was read. -/
def listLoop (nested : Nested) (flag : Nat) : Nat → Bool → Option Command → Read (Option Command)
  | 0, _, done => return done
  | room + 1, started, done => do
    let whole := flag ≠ 1
    expecting true true whole
    match ← token nested with
    | .newline =>
      documents nested
      return done
    | .endOfFile =>
      documents nested
      modify fun r => { r with pushed := true, last := .endOfFile }
      return done
    | t =>
      pushBack
      if whole && (started || flag = 2) && endsList t then return done
      let line := (← get).line
      let first ← pipeline nested
      let command ← joined nested plenty first
      let t ← token nested
      let command := if t = .operator "&" then .background line command else command
      let done := match done with
        | none => command
        | some before => .sequence before command
      match t with
      | .newline | .endOfFile =>
        pushBack
        listLoop nested flag room true (some done)
      | .operator "&" | .operator ";" => listLoop nested flag room true (some done)
      | _ =>
        if !whole then unexpected none
        pushBack
        return some done

end Read

def grammar : Nat → Nested
  | 0 =>
    { list := fun _ => Read.flaw "nested too deeply"
      command := Read.flaw "nested too deeply" }
  | depth + 1 =>
    { list := fun flag => Read.listLoop (grammar depth) flag plenty false none
      command := fun r => Read.command (grammar depth) r }

def deepest : Nat := 1000

/-- The next commands of a script, up to the end of a line; none at the end of the script. -/
def Read.line : Read (Option Command × Bool) := do
  modify fun r => { r with pushed := false, pending := [] }
  let command ← (grammar deepest).list 1
  let r ← get
  return (command, command.isNone && r.pushed && r.last = .endOfFile)

end JourneyMachine.Host.Shell
