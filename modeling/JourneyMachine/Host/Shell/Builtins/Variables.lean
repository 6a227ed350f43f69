import JourneyMachine.Host.Shell.Builtins.Basic

namespace JourneyMachine.Host.Shell

namespace Builtin

open Act

def nextByte : Act (Option Char) := do
  let s ← get
  match s.descriptors.find? 0 with
  | none => return none
  | some d =>
    match s.system.read d (some 1) with
    | .error _ => return none
    | .ok (bytes, system) =>
      set { s with system }
      return bytes.head?.map fun b => Char.ofNat b.toNat

/-- Reads a line. A backslash takes the meaning from the next character and hides the end of a
line, unless `raw` says that it does not. The cells stand backwards; the flag tells that the line
was complete. -/
def readLine (raw : Bool) : Nat → Bool → Nat → List Cell → Act (List Cell × Bool)
  | 0, _, _, done => return (done, false)
  | room + 1, hidden, region, done => do
    match ← nextByte with
    | none => return (done, false)
    | some c =>
      if c = '\x00' then readLine raw room hidden region done
      else if hidden then
        let done := if c = '\n' then done else .char c true none :: done
        readLine raw room false (region + 1) done
      else if !raw && c = '\\' then readLine raw room true region done
      else if c = '\n' then return (done, true)
      else readLine raw room false region (.char c false (some ⟨region, false⟩) :: done)

def read (words : List String) : Act Reply := do
  let (found, names) ← options [('p', true), ('r', false)] (words.length + 1) [] words
  if names.isEmpty then fail "arg count"
  let (cells, complete) ← readLine (found.any fun (c, _) => c = 'r') plenty false 0 []
  let fields := splitFields (← separators) (some names.length) cells.reverse
  (names.zipIdx).forM fun (name, i) =>
    setVariable name (some (cellText (fields.getD i []))) false false
  return { status := if complete then 0 else 1 }

def sortedNames (s : Shell) : List String :=
  (s.bindings.map Prod.fst).mergeSort fun a b => !(b < a)

def listVariables (lead : String) (p : Variable → Bool) : Act String := do
  let s ← get
  return lines ((sortedNames s).filterMap fun name => do
    let v ← s.bindings.lookup name
    if !p v then none
    else
      match v.value with
      | some value => some (lead ++ name ++ "=" ++ singleQuoted value)
      | none => some (lead ++ name))

def sides (word : String) : String × Option String :=
  let cs := word.toList
  match cs.dropWhile (· ≠ '=') with
  | [] => (word, none)
  | _ :: value => (String.ofList (cs.takeWhile (· ≠ '=')), some (String.ofList value))

def mark (self : String) (words : List String) : Act Reply := do
  let readonly := self = "readonly"
  let (found, words) ← flags ['p'] words
  if words.isEmpty || !found.isEmpty then
    return { output := ← listVariables (self ++ " ")
              fun v => if readonly then v.locked else v.exported }
  words.forM fun word =>
    let (name, value) := sides word
    setVariable name value (!readonly) readonly
  return {}

def unset (words : List String) : Act Reply := do
  let (found, words) ← flags ['v', 'f'] words
  words.forM fun word => do
    if found.head? = some 'f' then
      modify fun s => { s with functions := s.functions.filter fun (n, _) => n ≠ word }
    else
      let (name, _) := sides word
      if !isName name.toList then fail (name ++ ": bad variable name")
      if (← getVariable? name).any (·.locked) then fail (name ++ ": is read only")
      store name none
  return {}

/-- Makes a variable local: what it was before is noted. -/
def keepOld (name : String) : Act Unit := do
  let old ← getVariable? name
  modify fun s =>
    match s.locals with
    | frame :: frames => { s with locals := ((name, old) :: frame) :: frames }
    | [] => s

def declareLocal (words : List String) : Act Reply := do
  if !(← get).inFunction then fail "not in a function"
  words.forM fun word => do
    let (name, value) := sides word
    if name ≠ "-" then
      if !isName name.toList then fail (name ++ ": bad variable name")
      keepOld name
      if value.isSome then setVariable name value false false
  return {}

def shift (words : List String) : Act Reply := do
  let count ← match words with
    | [] => pure 1
    | word :: _ => number word
  let s ← get
  if s.parameters.length < count then fail "can't shift that many"
  set { s with parameters := s.parameters.drop count, optionOffset := 0 }
  return {}

def listOptions (asCommands : Bool) : Act String := do
  let s ← get
  let shown (name : String) : String :=
    let on := name ∈ s.options
    if asCommands then "set " ++ (if on then "-o " else "+o ") ++ name
    else name ++ "".pushn ' ' (16 - name.length) ++ if on then "on" else "off"
  let list := optionNames.map fun (name, _) => shown name
  return lines (if asCommands then list else "Current option settings" :: list)

structure Choices where
  output : String := ""
  /-- The command comes from the words. -/
  command : Bool := false
  /-- The options end with two dashes. -/
  closed : Bool := false

/-- Sets the options in a word behind its sign. At the start of a shell there are letters for
where its commands come from. -/
def setLetters (starting on : Bool) : List Char → List String → Choices →
    Act (List String × Choices)
  | [], words, c => return (words, c)
  | 'o' :: cs, words, c => do
    match words with
    | [] =>
      let output ← listOptions (!on)
      setLetters starting on cs [] { c with output := c.output ++ output }
    | name :: words =>
      if !(optionNames.any fun (n, _) => n = name) then fail ("Illegal option -o " ++ name)
      setOption name on
      setLetters starting on cs words c
  | letter :: cs, words, c => do
    if starting && letter = 'c' then setLetters starting on cs words { c with command := true }
    else if starting && letter = 'l' then setLetters starting on cs words c
    else
      match optionNames.find? fun (_, l) => l = some letter with
      | some (name, _) =>
        setOption name on
        setLetters starting on cs words c
      | none => fail ("Illegal option -" ++ letter.toString)

def setOptions (starting : Bool) : Nat → List String → Choices → Act (List String × Choices)
  | 0, words, c => return (words, c)
  | _ + 1, [], c => return ([], c)
  | room + 1, word :: words, c => do
    match word.toList with
    | ['-'] =>
      if !starting then
        setOption "xtrace" false
        setOption "verbose" false
      return (words, c)
    | ['-', '-'] => return (words, { c with closed := true })
    | '-' :: cs =>
      let (words, c) ← setLetters starting true cs words c
      setOptions starting room words c
    | '+' :: cs =>
      let (words, c) ← setLetters starting false cs words c
      setOptions starting room words c
    | _ => return (word :: words, c)

def configure (words : List String) : Act Reply := do
  if words.isEmpty then return { output := ← listVariables "" fun v => v.value.isSome }
  let (words, c) ← setOptions false (words.length + 1) words {}
  if !words.isEmpty || c.closed then
    modify fun s => { s with parameters := words, optionOffset := 0 }
  return { output := c.output }

/-- Finds the next option among words, which the parameters are if none are given. -/
def getopts (words : List String) : Act Reply := do
  match words with
  | letters :: name :: given =>
    let s ← get
    let given := if given.isEmpty then s.parameters else given
    let letters := letters.toList
    let quiet := letters.head? = some ':'
    let allowed := if quiet then letters.tail else letters
    let start := ((← value? "OPTIND").bind (·.toNat?)).getD 1
    let start := if given.length + 1 < start then 1 else start
    let finish (index offset status : Nat) (found : Char) : Act Reply := do
      assign "OPTIND" (toString index)
      assign name (String.singleton found)
      modify fun s => { s with optionOffset := offset }
      return { status }
    let current := if 1 < start then ((given.getD (start - 2) "").toList).drop s.optionOffset else []
    -- The letters that are left, and the place of the word behind them.
    let next? : Option (List Char × Nat × Nat) :=
      if s.optionOffset ≠ 0 && !current.isEmpty then some (current, start, s.optionOffset)
      else
        match (given.getD (start - 1) "").toList with
        | '-' :: c :: cs => some (c :: cs, start + 1, 1)
        | _ => none
    match next? with
    | none => finish start 0 1 '?'
    | some (['-'], index, 1) => finish index 0 1 '?'
    | some ([], index, _) => finish index 0 1 '?'
    | some (c :: cs, index, offset) =>
      let rest := if cs.isEmpty then 0 else offset + 1
      let complain (text : String) (found : Char) : Act Char := do
        if quiet then
          assign "OPTARG" (String.singleton c)
          return found
        discard (write 2 (text ++ "\n"))
        store "OPTARG" none
        return '?'
      match allowed.dropWhile (· ≠ c) with
      | [] => finish index rest 0 (← complain ("Illegal option -" ++ c.toString) '?')
      | _ :: ':' :: _ =>
        if !cs.isEmpty then
          assign "OPTARG" (String.ofList cs)
          finish index 0 0 c
        else
          match given[index - 1]? with
          | none => finish index 0 0 (← complain ("No arg for -" ++ c.toString ++ " option") ':')
          | some value =>
            assign "OPTARG" value
            finish (index + 1) 0 0 c
      | _ =>
        assign "OPTARG" ""
        finish index rest 0 c
  | _ => fail "Usage: getopts optstring var [arg...]"

end Builtin

end JourneyMachine.Host.Shell
