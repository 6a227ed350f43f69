import JourneyMachine.Host.Shell.Simple

namespace JourneyMachine.Host.Shell

namespace Act

/-- Leaves the shell if a command failed that nothing looks at and the options ask for it. -/
def checked (tested : Bool) : Act Unit := do
  let s ← get
  if s.status ≠ 0 && !tested && "errexit" ∈ s.options then throw .exit

def atLine (line : Nat) : Act Unit := modify fun s => { s with line }

def execute (e : Engine) (tested : Bool) (command : Command) : Act Unit := do
  if ← hasOption "noexec" then return
  match command with
  | .nothing => return
  | .simple line assignments words redirections =>
    runSimple e tested line assignments words redirections
    checked tested
  | .pipeline stages =>
    runStages e tested (← get).status none stages
    checked tested
  | .background line command =>
    atLine line
    runBehind e command
  | .negation command =>
    e.run true command
    modify fun s => { s with status := if s.status = 0 then 1 else 0 }
  | .both first second =>
    e.run true first
    if (← get).status = 0 then e.run tested second
  | .either first second =>
    e.run true first
    if (← get).status ≠ 0 then e.run tested second
  | .sequence first second =>
    e.run tested first
    e.run tested second
  | .redirected line command redirections =>
    atLine line
    let routes ← redirections.mapM (route (substitute e))
    discard (redirected (substitute e) routes (e.run tested command))
  | .subshell line command redirections =>
    atLine line
    let routes ← redirections.mapM (route (substitute e))
    isolated e do
      routes.forM (reroute (substitute e))
      e.run tested command
    checked tested
  | .choice condition positive negative =>
    e.run true condition
    if (← get).status = 0 then e.run tested positive
    else
      match negative with
      | some command => e.run tested command
      | none => setStatus 0
  | .loop sense condition body =>
    inLoop (rounds e tested sense condition body plenty 0)
  | .each line name words body =>
    atLine line
    let values ← words.flatMapM (expandFields (substitute e))
    setStatus 0
    inLoop (runEach e tested name body values)
  | .select line word cases =>
    atLine line
    let text ← expandText (substitute e) word
    runCases e tested text.toList cases
  | .define _ name body =>
    modify fun s =>
      { s with
        functions := (name, body) :: s.functions.filter fun (n, _) => n ≠ name
        status := 0 }

/-- Runs a script line by line; whether it held any command. -/
def runLines (e : Engine) (tested : Bool) : Nat → Bool → Reader → Act Bool
  | 0, _, _ => throw .exhausted
  | room + 1, ran, reader => do
    let s ← get
    match Read.line { reader with aliases := s.aliases, documents := s.documents } with
    | .error flaw _ =>
      atLine flaw.line
      fail ("Syntax error: " ++ flaw.message)
    | .ok (command?, ended) reader =>
      modify fun s => { s with documents := reader.documents, readTo := reader.line }
      match command? with
      | some command =>
        e.run tested command
        runLines e tested room true reader
      | none => if ended then return ran else runLines e tested room ran reader

def runScript (e : Engine) (tested : Bool) (text : String) : Act Bool := do
  let readTo := (← get).readTo
  ensuring (runLines e tested plenty false { rest := text.toList }) fun s => { s with readTo }

def remainingInput : Act String := do
  let s ← get
  match s.descriptors.find? 0 with
  | none => return ""
  | some d =>
    match s.system.read d none with
    | .error _ => return ""
    | .ok (bytes, system) =>
      set { s with system }
      return octets bytes

/-- What a shell does with its words: the script is a word, a file or the input. -/
def takeUp (e : Engine) (words : List String) : Act Unit := do
  atLine 0
  let (words, c) ← Builtin.setOptions true (words.length + 1) words {}
  discard (write 1 c.output)
  let parameters (words : List String) : Act Unit := modify fun s => { s with parameters := words }
  let named (words : List String) : Act Unit :=
    match words with
    | [] => return
    | name :: words => modify fun s => { s with name, parameters := words }
  if c.command then
    match words with
    | [] => fail "-c requires an argument"
    | text :: words =>
      named words
      discard (e.script false text)
  else if words.isEmpty || (← hasOption "stdin") then
    setOption "stdin" true
    parameters words
    discard (e.script false (← remainingInput))
  else
    let text ← readFile (words.headD "")
    named words
    discard (e.script false text)

def firstVariables (environment : List (String × String)) (directory : List String) :
    List (String × Variable) :=
  let own := [("IFS", " \t\n"), ("OPTIND", "1"), ("PPID", "1"), ("PS1", "# "), ("PS2", "> "),
    ("PS4", "+ ")]
  let fresh := own.map fun (name, value) => (name, ({ value := some value } : Variable))
  let given := environment.filter fun (name, _) =>
    isName name.toList && !(name ∈ ["IFS", "OPTIND", "PPID", "PWD"])
  let given := given.map fun (name, value) =>
    (name, ({ value := some value, exported := true } : Variable))
  let here : Variable :=
    { value := some (toOctets (Builtin.directoryName directory)), exported := true }
  given ++ (fresh.filter fun (name, _) => (given.lookup name).isNone) ++ [("PWD", here)]

def fresh (system : System) (process : Process) (self : String) : Shell :=
  { system
    name := self
    descriptors := process.descriptors
    directory := process.directory
    bindings := firstVariables process.environment process.directory }

def runShell (e : Engine) (self : String) (words : List String) : Act Unit := do
  let s ← get
  let process : Process :=
    { descriptors := s.descriptors, directory := s.directory, environment := environment s }
  match toEnd e (takeUp e words) (fresh s.system process self) with
  | .ok _ t | .error _ t => set { s with system := t.system, status := t.status % 256 }

end Act

def engine : Nat → Engine
  | 0 =>
    { run := fun _ _ => throw .exhausted
      script := fun _ _ => throw .exhausted
      shell := fun _ _ => throw .exhausted }
  | depth + 1 =>
    { run := fun tested command s => Act.execute (engine depth) tested command s
      script := fun tested text s => Act.runScript (engine depth) tested text s
      shell := fun self words s => Act.runShell (engine depth) self words s }

def deepestRun : Nat := 20000

/-- Runs a program with its words: a shell or another one. -/
def start (file self : String) (words : List String) : Program Nat := do
  match plainProgram? file self words with
  | some p => p
  | none =>
    let e := engine deepestRun
    match Act.toEnd e (Act.takeUp e words) (Act.fresh (← get) (← read) self) with
    | .ok _ s | .error _ s =>
      set s.system
      return s.status % 256

end JourneyMachine.Host.Shell
