import JourneyMachine.Host.Shell.Engine

namespace JourneyMachine.Host.Shell

namespace Act

/-- Runs a function: it has parameters and local variables of its own. -/
def runFunction (e : Engine) (tested : Bool) (body : Command) (words : List String) : Act Unit := do
  let s ← get
  if 1000 ≤ s.locals.length then fail "Maximum function recursion depth (1000) reached"
  set { s with parameters := words, loops := 0, inFunction := true, locals := [] :: s.locals }
  let restore (t : Shell) : Shell :=
    { t with
      parameters := s.parameters
      loops := s.loops
      inFunction := s.inFunction
      locals := s.locals }
  let restoreLocals : Act Unit := do
    ((← get).locals.headD []).forM fun (name, old) => store name old
  match e.run tested body (← get) with
  | .ok _ t | .error .function t =>
    set t
    restoreLocals
    modify restore
  | .error leave t =>
    set t
    restoreLocals
    modify restore
    throw leave

/-- Whether words run a command past functions and guard against its errors: the rest behind
`command` and its options. -/
def guarded? : List String → Option (List String)
  | [] => none
  | word :: rest =>
    match word.toList with
    | ['-', '-'] => if rest.isEmpty then none else some rest
    | '-' :: c :: cs => if (c :: cs).all (· = 'p') then guarded? rest else none
    | _ => some (word :: rest)

inductive Target where
  | nothing
  | builtin (name : String)
  | function (body : Command)
  | program
deriving Inhabited

/-- The words of a command without `command` in front of them, whether it was there, and what they
run. -/
def target (s : Shell) : Nat → Bool → List String → List String × Bool × Target
  | 0, guarded, words => (words, guarded, .program)
  | _ + 1, guarded, [] => ([], guarded, .nothing)
  | room + 1, guarded, name :: words =>
    let function? := if guarded then none else s.functions.lookup name
    if isSpecial name then (name :: words, guarded, .builtin name)
    else
      match function? with
      | some body => (name :: words, guarded, .function body)
      | none =>
        if name = "command" then
          match guarded? words with
          | some words => target s room true words
          | none => (name :: words, guarded, .builtin name)
        else if isBuiltin name then (name :: words, guarded, .builtin name)
        else (name :: words, guarded, .program)

/-- The fields of the words of a command. Behind a builtin that takes assignments these are
expanded as such. -/
def expandWords (run : Substitute) : List String → List Word → Act (List String)
  | done, [] => return done.reverse
  | done, word :: rest => do
    let assigning := match done.reverse.dropWhile fun text => text ∈ ["command", "-p", "--"] with
      | name :: _ => decide (name ∈ assigningBuiltins)
      | [] => false
    if assigning && (assignmentName? word).isSome then
      expandWords run ((← expandAssignment run word) :: done) rest
    else expandWords run ((← expandFields run word).reverse ++ done) rest

/-- Carries out an assignment; one for a single command is noted with what was before. -/
def carryOut (run : Substitute) (temporary exported : Bool) (word : Word) :
    Act (String × String × Option Variable) := do
  let text ← expandAssignment run word
  let (name, value) := Builtin.sides text
  let old ← getVariable? name
  setVariable name value (temporary || exported) false
  return (text, name, old)

def trace (descriptors : Descriptors) (texts : List String) : Act Unit := do
  let s ← get
  let lead := ((s.bindings.lookup "PS4").bind (·.value)).getD ""
  set { s with descriptors }
  discard (write 2 (lead ++ " ".intercalate texts ++ "\n"))
  modify fun t => { t with descriptors := s.descriptors }

def readFile (name : String) : Act String := do
  let s ← get
  match s.system.openName s.directory s.descriptors (ofOctets name) { readable := true } with
  | .error trouble => fail ("cannot open " ++ name ++ ": " ++ refusal trouble "No such file")
  | .ok (d, system) =>
    match system.read d none with
    | .error _ => return ""
    | .ok (bytes, system) =>
      set { s with system }
      return octets bytes

def runDot (e : Engine) (words : List String) : Act Unit := do
  let (_, words) ← Builtin.flags [] words
  match words with
  | [] => setStatus 0
  | name :: _ =>
    let s ← get
    let file ←
      if name.toList.contains '/' then pure name
      else
        let found := ((← Builtin.path).splitOn ":").findSome? fun directory =>
          let file := if directory = "" then name else directory ++ "/" ++ name
          match s.system.entry? s.directory (ofOctets file) with
          | some (.file _) | some (.program _) => some file
          | _ => none
        match found with
        | some file => pure file
        | none => fail (name ++ ": not found")
    let text ← readFile file
    modify fun s => { s with builtin := some file }
    match (e.script false text) (← get) with
    | .ok ran t =>
      set t
      if !ran then setStatus 0
    | .error .function t => set t
    | .error leave t =>
      set t
      throw leave

def runBuiltin (e : Engine) (tested : Bool) (name : String) (words : List String) : Act Unit := do
  match name with
  | "eval" =>
    let ran ← if words.isEmpty then pure false else e.script tested (" ".intercalate words)
    if !ran then setStatus 0
  | "." => runDot e words
  | "exec" =>
    let (_, words) ← Builtin.flags [] words
    match words with
    | [] => setStatus 0
    | name :: words =>
      runProgram e name (← Builtin.path) words
      throw .exit
  | _ =>
    let reply ← Builtin.run name words
    if reply.output = "" || (← write 1 reply.output) then setStatus reply.status
    else
      warn (name ++ ": I/O error")
      setStatus (reply.status ||| 1)

/-- Runs a builtin under its name; an error in one that is not special ends only the builtin. -/
def runNamed (e : Engine) (tested special : Bool) (name : String) (words : List String) :
    Act Unit := do
  let s ← get
  let restore (t : Shell) : Shell := { t with builtin := s.builtin }
  match (runBuiltin e tested name words) { s with builtin := some name } with
  | .ok _ t => set (restore t)
  | .error leave t =>
    set (restore t)
    if leave ≠ .error || special then throw leave

def runSimple (e : Engine) (tested : Bool) (line : Nat) (assignments words : List Word)
    (redirections : List Redirection) : Act Unit := do
  let run := substitute e
  modify fun s => { s with line, substituted := 0 }
  let words ← expandWords run [] words
  let (bare, guarded, target) := target (← get) (words.length + 1) false words
  let special := !guarded && match target with
    | .builtin name => isSpecial name
    | _ => false
  let temporary := !words.isEmpty && !special
  let isExec := bare.head? = some "exec"
  let routes ← redirections.mapM (route run)
  let outer := (← get).descriptors
  let body : Act Unit := do
    let carried ← assignments.mapM (carryOut run temporary (isExec && 1 < bare.length))
    if (← hasOption "xtrace") then trace outer (carried.map (·.1) ++ words)
    let restore (t : Shell) : Shell :=
      let undone : Act Unit := carried.reverse.forM fun (_, name, old) => store name old
      if temporary then
        match undone t with
        | .ok _ t | .error _ t => t
      else t
    ensuring (do
      match target with
      | .nothing => modify fun s => { s with status := s.substituted }
      | .builtin name => runNamed e tested special name bare.tail
      | .function body => runFunction e tested body bare.tail
      | .program => runProgram e (bare.headD "") (← Builtin.path) bare.tail) restore
  if isExec && !guarded then
    -- What `exec` redirects stays so.
    if ← succeeds (routes.forM (reroute run)) then body
    else throw .error
  else if !(← redirected run routes body) && special then throw .error

end Act

end JourneyMachine.Host.Shell
