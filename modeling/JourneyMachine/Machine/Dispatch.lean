import JourneyMachine.Machine.Scrolls

namespace JourneyMachine.Run

def onFrame {α : Type} (f : Frame → Except Fault (α × Frame)) : Run α := fun _ m =>
  match m.frames with
  | [] => .error (.fatal (.malformed .noFrame)) m
  | frame :: rest =>
    match f frame with
    | .ok (a, frame) => .ok a { m with frames := frame :: rest }
    | .error fault => .error (.fatal fault) m

def register (i : Nat) : Run Value :=
  onFrame fun f => return (← f.register i, f)

def setRegister (i : Nat) (v : Value) : Run Unit :=
  onFrame fun f => return ((), ← f.setRegister i v)

def jump (target : Nat) : Run Unit :=
  onFrame fun f => return ((), ← f.jump target)

/-- Runs a computation with a fresh frame on top. Afterwards only as many frames are left as there
were before, and the handlers that frame or a deeper one installed are gone. -/
def withFrame {α : Type} (journey : Handle) (pattern : Pattern) (body : Run α) : Run α :=
  fun env m =>
    let depth := m.frames.length
    match body env { m with frames := .start journey pattern :: m.frames } with
    | .ok a m => .ok a (m.unwindTo depth)
    | .error .halted m => .error .halted m
    | .error unwind m => .error unwind (m.unwindTo depth)

section Binding

variable (evaluate : Nat → Run Value)

def bindGiven : Nat → List Parameter → List Value → Run Unit
  | _, [], _ => return ()
  | _, _, [] => return ()
  | i, _ :: parameters, v :: values => do
    setRegister i v
    bindGiven (i + 1) parameters values

/-- Fills positional registers by the defaults of the parameters; false if one has none. -/
def bindDefaults : Nat → List Parameter → Run Bool
  | _, [] => return true
  | i, p :: rest =>
    match p.fallback with
    | none => return false
    | some start => do
      setRegister i (← evaluate start)
      bindDefaults (i + 1) rest

/-- Fills the positional registers; false if the pattern takes another number of arguments. -/
def bindPositional (pattern : Pattern) (values : List Value) : Run Bool := do
  let declared := pattern.positional.length
  bindGiven 0 pattern.positional values
  if declared < values.length then
    if pattern.splat then
      let rest ← newBook (values.drop declared).toArray
      setRegister pattern.splatRegister rest
      return true
    else return false
  else if ← bindDefaults evaluate values.length (pattern.positional.drop values.length) then
    if pattern.splat then
      let rest ← newBook #[]
      setRegister pattern.splatRegister rest
    return true
  else return false

/-- Fills keyword registers by the arguments. The result tells which keywords were filled and which
arguments are left over; it is none if one is left over that the pattern does not collect. -/
def bindKeywordArguments (pattern : Pattern) :
    List (String × Value) → List Nat → List (String × Value) →
      Run (Option (List Nat × List (String × Value)))
  | [], filled, extra => return some (filled, extra)
  | (name, v) :: rest, filled, extra =>
    match pattern.keywordIndex? name with
    | some i => do
      setRegister (pattern.keywordRegister i) v
      bindKeywordArguments pattern rest (i :: filled) extra
    | none =>
      if pattern.splatsplat then
        bindKeywordArguments pattern rest filled (extra ++ [(name, v)])
      else return none

/-- Fills the keyword registers that are not filled by the defaults of the parameters; false if one
has none. -/
def bindKeywordDefaults (pattern : Pattern) (filled : List Nat) : Nat → List Parameter → Run Bool
  | _, [] => return true
  | i, p :: rest =>
    if i ∈ filled then bindKeywordDefaults pattern filled (i + 1) rest
    else
      match p.fallback with
      | none => return false
      | some start => do
        setRegister (pattern.keywordRegister i) (← evaluate start)
        bindKeywordDefaults pattern filled (i + 1) rest

def collectKeywords (target : Handle) : List (String × Value) → Run Unit
  | [] => return ()
  | (name, v) :: rest => do
    codexInsert target (← newText name) v
    collectKeywords target rest

/-- Fills the keyword registers; false if the pattern does not take the keywords. -/
def bindKeywords (pattern : Pattern) (keywords : List (String × Value)) : Run Bool := do
  match ← bindKeywordArguments pattern keywords [] [] with
  | none => return false
  | some (filled, extra) =>
    if ← bindKeywordDefaults evaluate pattern filled 0 pattern.keywords then
      if pattern.splatsplat then
        let target ← allocate (.codex [])
        setRegister pattern.splatsplatRegister (.codex target)
        collectKeywords target extra
      return true
    else return false

/-- Whether the values of the registers match the guards of the parameters. `registerOf` gives the
register of a parameter. -/
def checkGuards (registerOf : Nat → Nat) : Nat → List Parameter → Run Bool
  | _, [] => return true
  | i, p :: rest =>
    match p.guard with
    | none => checkGuards registerOf (i + 1) rest
    | some start => do
      let guard ← evaluate start
      let v ← register (registerOf i)
      if ← withPinned [guard] (fits guard v) then checkGuards registerOf (i + 1) rest
      else return false

def checkCondition (pattern : Pattern) : Run Bool :=
  match pattern.condition with
  | none => return true
  | some start => do toVeracity (← evaluate start)

/-- Binds arguments to the registers of the frame on top; false if the pattern does not apply. -/
def bindArguments (pattern : Pattern) (args : Arguments) : Run Bool := do
  if !(← bindPositional evaluate pattern args.positional) then return false
  else if !(← bindKeywords evaluate pattern args.keywords) then return false
  else if !(← checkGuards evaluate id 0 pattern.positional) then return false
  else if !(← checkGuards evaluate pattern.keywordRegister 0 pattern.keywords) then return false
  else checkCondition evaluate pattern

/-- Tries patterns in order and runs the body of the first one that applies. -/
def tryPatterns (h : Handle) (name : String) (args : Arguments) : List Pattern → Run Value
  | [] => complain (.noPatternMatches name)
  | pattern :: rest => do
    let result ← withFrame h pattern do
      if ← bindArguments evaluate pattern args then return some (← evaluate pattern.start)
      else return none
    match result with
    | some v => return v
    | none => tryPatterns h name args rest

def callJourney (h : Handle) (args : Arguments) : Run Value := do
  let j ← journey h
  let m ← get
  if m.settings.maxFrames ≤ m.frameDepth then complain .tooManyFrames
  else tryPatterns evaluate h j.name args j.patterns

/-- Whether arguments match the guards of the matter fields; throws at the first that does not. -/
def checkFields (name : String) : List Matter → List Value → Run Unit
  | m :: fields, v :: values => do
    match m.guard with
    | none => checkFields name fields values
    | some guard =>
      if ← fits guard v then checkFields name fields values
      else complain (.argumentGenus m.name name)
  | _, _ => return ()

/-- Makes an imitation of a form. Without a constructor the arguments are its matter; with one, the
constructor is called on the new imitation and the arguments. -/
def imitate (h : Handle) (args : Arguments) : Run Value := do
  let f ← form h
  match f.imitate with
  | none =>
    if args.keywords ≠ [] then complain (.takesNoKeywords f.name)
    else if args.positional.length ≠ f.matter.length then
      complain (.fieldCount f.name f.matter.length args.positional.length)
    else
      checkFields f.name f.matter args.positional
      let made : Imitation := { form := h, matter := args.positional.toArray }
      return .imitation (← allocate (.imitation made))
  | some constructor =>
    let blank : Imitation := { form := h, matter := Array.replicate f.matter.length .ni }
    let made := Value.imitation (← allocate (.imitation blank))
    withPinned [made] do
      discard (callJourney evaluate constructor
        { args with positional := made :: args.positional })
    return made

def call? (callee : Value) (args : Arguments) : Run (Option Value) :=
  withPinned (callee :: args.values) do
    match callee with
    | .journey h => return some (← callJourney evaluate h args)
    | .form h => return some (← imitate evaluate h args)
    | .other h =>
      match ← other h with
      | .host journey => return some (← callHost journey args)
      | _ => return none
    | _ => return none

def callValue (callee : Value) (args : Arguments) : Run Value := do
  match ← call? evaluate callee args with
  | some v => return v
  | none => complain (.cannotCall (← typeName callee))

end Binding

end JourneyMachine.Run
