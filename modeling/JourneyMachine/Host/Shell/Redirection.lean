import JourneyMachine.Host.Shell.Expansion

namespace JourneyMachine.Host.Shell

structure Route where
  number : Nat
  direction : Direction
  target : String

namespace Act

/-- The reason that a file cannot be opened or made; a path that leads nowhere has a wording of its
own. -/
def refusal (trouble : Trouble) (nowhere : String) : String :=
  if trouble = .noSuchFile ∨ trouble = .notDirectory then nowhere else trouble.reason

def notDescriptor {α : Type} : Act α := do
  modify fun s => { s with line := s.readTo }
  fail "Syntax error: Bad fd number"

def route (run : Substitute) : Redirection → Act Route
  | .mk number direction target => do
    match direction with
    | .document _ _ => return { number, direction, target := "" }
    | .copyInput | .copyOutput =>
      let target ← expandText run target
      match target.toList with
      | [c] => if !c.isDigit && c ≠ '-' then notDescriptor
      | _ => notDescriptor
      return { number, direction, target }
    | _ => return { number, direction, target := ← expandText run target }

def bindDescriptor (number : Nat) (d : Descriptor) : Act Unit :=
  modify fun s => { s with descriptors := s.descriptors.bind number d }

def openAs (number : Nat) (name : String) (access : Access) : Act Unit := do
  let s ← get
  match s.system.openName s.directory s.descriptors (ofOctets name) access with
  | .ok (d, system) =>
    set { s with system }
    bindDescriptor number d
  | .error trouble =>
    if access.creates then
      fail ("cannot create " ++ name ++ ": " ++ refusal trouble "Directory nonexistent")
    else fail ("cannot open " ++ name ++ ": " ++ refusal trouble "No such file")

def isProtected (name : String) : Act Bool := do
  let s ← get
  match s.system.entry? s.directory (ofOctets name) with
  | some (.file _) => hasOption "noclobber"
  | _ => return false

def textDescriptor (text : String) : Act Descriptor :=
  modifyGet fun s =>
    let (stream, system) := s.system.add (.pipe ⟨(bytesOf text).toArray⟩ 0)
    ({ stream, readable := true }, { s with system })

def documentText (run : Substitute) (slot : Nat) (expands : Bool) : Act String := do
  let word := (← get).documents.getD slot []
  if expands then expandDocument run word
  else
    return String.ofList (word.filterMap fun
      | .char c | .escaped c => some c
      | _ => none)

def reroute (run : Substitute) (r : Route) : Act Unit := do
  match r.direction with
  | .input => openAs r.number r.target { readable := true }
  | .both => openAs r.number r.target { readable := true, writable := true, creates := true }
  | .output | .overwrite =>
    if r.direction = .output && (← isProtected r.target) then
      fail ("cannot create " ++ r.target ++ ": File exists")
    openAs r.number r.target { writable := true, creates := true, truncates := true }
  | .append => openAs r.number r.target { writable := true, creates := true, appends := true }
  | .copyInput | .copyOutput =>
    match r.target.toNat? with
    | none => modify fun s => { s with descriptors := s.descriptors.close r.number }
    | some source =>
      if source ≠ r.number then
        match (← get).descriptors.find? source with
        | some d => bindDescriptor r.number d
        | none => fail (toString source ++ ": " ++ Trouble.reason .badDescriptor)
  | .document slot expands =>
    bindDescriptor r.number (← textDescriptor (← documentText run slot expands))

def succeeds (body : Act Unit) : Act Bool := fun s =>
  match body s with
  | .ok _ s => .ok true s
  | .error .error s => .ok false s
  | .error leave s => .error leave s

/-- Runs a step under redirections and takes them back, whichever way the step ends. A redirection
that fails gives the status 2; whether the step was run. -/
def redirected (run : Substitute) (routes : List Route) (body : Act Unit) : Act Bool := do
  let descriptors := (← get).descriptors
  ensuring (do
    if ← succeeds (routes.forM (reroute run)) then
      body
      return true
    else
      setStatus 2
      return false) fun s => { s with descriptors }

end Act

end JourneyMachine.Host.Shell
