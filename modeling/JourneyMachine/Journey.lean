import JourneyMachine.Code.Instruction

/-!
# Journeys

A journey is a named group of patterns that are tried in declaration order. The registers of a
pattern's frame start with its parameters:

    positional…, splat?, keywords…, splatsplat?, scratch…
-/

namespace JourneyMachine

/-- A declared parameter. `fallback` and `guard` are entry points of sub-programs. -/
structure Parameter where
  name : String
  fallback : Option Nat := none
  guard : Option Nat := none
deriving DecidableEq, Repr, Inhabited

/-- One overload of a journey. `splat` collects surplus positional arguments, `splatsplat` unknown
keywords; `condition` and `start` are entry points. -/
structure Pattern where
  positional : List Parameter := []
  keywords : List Parameter := []
  splat : Bool := false
  splatsplat : Bool := false
  condition : Option Nat := none
  start : Nat := 0
  block : Codeblock := {}
deriving DecidableEq, Repr, Inhabited

namespace Pattern

def splatRegister (p : Pattern) : Nat := p.positional.length

def keywordRegister (p : Pattern) (index : Nat) : Nat :=
  p.positional.length + p.splat.toNat + index

def splatsplatRegister (p : Pattern) : Nat := p.keywordRegister p.keywords.length

def boundRegisters (p : Pattern) : Nat := p.splatsplatRegister + p.splatsplat.toNat

def frameSize (p : Pattern) : Nat := max p.block.registers p.boundRegisters

def keywordIndex? (p : Pattern) (name : String) : Option Nat :=
  p.keywords.findIdx? (·.name == name)

def renderParameter (p : Parameter) : String :=
  p.name ++ (p.guard.map fun g => s!": @{g}").getD "" ++ (p.fallback.map fun d => s!"=@{d}").getD ""

/-- The parameter list of a pattern, for instance `(a, b=@4, *, c:, **) if @12 start @0`. -/
def signature (p : Pattern) : String :=
  let parts := p.positional.map renderParameter ++ (if p.splat then ["*"] else []) ++
    p.keywords.map (fun k => renderParameter k ++ ":") ++ (if p.splatsplat then ["**"] else [])
  "(" ++ ", ".intercalate parts ++ ")" ++ (p.condition.map fun c => s!" if @{c}").getD "" ++
    s!" start @{p.start}"

end Pattern

/-- A callable made of patterns. -/
structure Journey where
  name : String
  patterns : List Pattern := []
deriving DecidableEq, Repr, Inhabited

namespace Journey

def arity (j : Journey) : Nat :=
  (j.patterns.head?.map (·.positional.length)).getD 0

end Journey

/-- The arguments of a call; keywords are in call order and may repeat. -/
structure Arguments where
  positional : List Value := []
  keywords : List (String × Value) := []
deriving DecidableEq, Repr, Inhabited

namespace Arguments

def ofList (positional : List Value) : Arguments := { positional }

def values (args : Arguments) : List Value :=
  args.positional ++ args.keywords.map (·.2)

end Arguments

end JourneyMachine
