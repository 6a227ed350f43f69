import JourneyMachine.Image.Basic
import JourneyMachine.Machine.Start

/-!
# Loading an image

Forms and journeys are placed first, empty but for their names, so that constants can refer to any
of them; then patterns, forms and globals are filled in. Everything placed stays pinned until the
load is over.
-/

namespace JourneyMachine.Image

/-- Where the forms and journeys of an image were placed. -/
structure Placed where
  forms : Array Handle
  journeys : Array Handle
deriving DecidableEq, Repr

namespace Placed

def journey (p : Placed) (index : UInt32) : Except Fault Handle :=
  match p.journeys[index.toNat]? with
  | some h => .ok h
  | none => .error (.malformed (.journeyRange index.toNat))

def form (p : Placed) (index : UInt32) : Except Fault Handle :=
  match p.forms[index.toNat]? with
  | some h => .ok h
  | none => .error (.malformed (.formRange index.toNat))

end Placed

open Run

def place (object : Object) : Run Handle := do
  let genus := object.genus
  let h ← allocate object
  modify fun m => { m with pinned := (Value.ofHandle? genus h).toList ++ m.pinned }
  return h

def placeAll : List Object → Run (List Handle)
  | [] => return []
  | object :: rest => do
    let h ← place object
    return h :: (← placeAll rest)

mutual

def loadConstant (placed : Placed) : Constant → Run Value
  | .ni => return .ni
  | .veracity truth => return .veracity truth
  | .numeral n => return .numeral n
  | .text content => return .text (← place (.text content))
  | .journey index => return .journey (← ofExcept (placed.journey index))
  | .form index => return .form (← ofExcept (placed.form index))
  | .exception => return .form (← get).builtins.exception
  | .ioError => return .form (← get).builtins.ioError
  | .book pages => do
    let h ← place (.book #[])
    loadPages placed h pages
    return .book h

def loadPages (placed : Placed) (target : Handle) : List Constant → Run Unit
  | [] => return ()
  | c :: rest => do
    let v ← loadConstant placed c
    editBook target (·.push v)
    loadPages placed target rest

end

def loadConstants (placed : Placed) : List Constant → Run (List Value)
  | [] => return []
  | c :: rest => do
    let v ← loadConstant placed c
    return v :: (← loadConstants placed rest)

def loadOptional (placed : Placed) : Option Constant → Run (Option Value)
  | none => return none
  | some c => return some (← loadConstant placed c)

def loadParameter (p : Parameter) : JourneyMachine.Parameter :=
  { name := p.name, fallback := p.fallback.map (·.toNat), guard := p.guard.map (·.toNat) }

def loadPattern (placed : Placed) (p : Pattern) : Run JourneyMachine.Pattern := do
  let constants ← loadConstants placed p.block.constants
  return {
    positional := p.positional.map loadParameter
    keywords := p.keywords.map loadParameter
    splat := p.splat
    splatsplat := p.splatsplat
    condition := p.condition.map (·.toNat)
    start := p.start.toNat
    block :=
      { registers := p.block.registers.toNat
        constants := constants.toArray
        code := p.block.code.toArray } }

def loadPatterns (placed : Placed) : List Pattern → Run (List JourneyMachine.Pattern)
  | [] => return []
  | p :: rest => do
    let pattern ← loadPattern placed p
    return pattern :: (← loadPatterns placed rest)

def loadEssences (placed : Placed) : List Essence → Run (List JourneyMachine.Essence)
  | [] => return []
  | e :: rest => do
    let value ← loadConstant placed e.value
    let guard ← loadOptional placed e.guard
    return { name := e.name, value, guard } :: (← loadEssences placed rest)

def loadMatter (placed : Placed) : List Matter → Run (List JourneyMachine.Matter)
  | [] => return []
  | m :: rest => do
    let guard ← loadOptional placed m.guard
    return { name := m.name, guard } :: (← loadMatter placed rest)

def loadForm (placed : Placed) (f : Form) : Run JourneyMachine.Form := do
  let essences ← loadEssences placed f.essences
  let matter ← loadMatter placed f.matter
  let recollections ← f.recollections.mapM fun i => ofExcept (placed.journey i)
  let changes ← f.changes.mapM fun i => ofExcept (placed.journey i)
  let imitate ← f.imitate.mapM fun i => ofExcept (placed.journey i)
  let parents ← f.parents.mapM fun i => ofExcept (placed.form i)
  return { name := f.name, essences, matter, recollections, changes, imitate, parents }

def fillJourneys (placed : Placed) : List (Journey × Handle) → Run Unit
  | [] => return ()
  | (j, h) :: rest => do
    let patterns ← loadPatterns placed j.patterns
    discard (journey h)
    update h fun _ => .journey { name := j.name, patterns }
    fillJourneys placed rest

def fillForms (placed : Placed) : List (Form × Handle) → Run Unit
  | [] => return ()
  | (f, h) :: rest => do
    let filled ← loadForm placed f
    editForm h fun _ => filled
    fillForms placed rest

def loadGlobals (placed : Placed) : List Global → Run Unit
  | [] => return ()
  | g :: rest => do
    let v ← loadConstant placed g.value
    modify (·.defineGlobal g.name v)
    loadGlobals placed rest

/-- Installs an image; the result are its journeys in order. -/
def link (image : Image) : Run (List Value) := do
  let forms ← placeAll (image.forms.map fun f => .form { name := f.name })
  let journeys ← placeAll (image.journeys.map fun j => .journey { name := j.name })
  let placed : Placed := { forms := forms.toArray, journeys := journeys.toArray }
  fillJourneys placed (image.journeys.zip journeys)
  fillForms placed (image.forms.zip forms)
  loadGlobals placed image.globals
  match image.main with
  | none => pure ()
  | some index =>
    let main ← ofExcept (placed.journey index)
    set (← ofExcept ((← get).setMain (.journey main)))
  match image.argvGlobal with
  | none => pure ()
  | some index => set (← ofExcept ((← get).setArgvGlobal index.toNat))
  return journeys.map .journey

/-- Loads an image into a machine whose program has no globals yet; the result are its journeys in
order. -/
def load (image : Image) : Run (List Value) := do
  if (← get).program.globals.size = 0 then settle (withPinned [] (link image))
  else fail (.malformed .programNotEmpty)

end JourneyMachine.Image
