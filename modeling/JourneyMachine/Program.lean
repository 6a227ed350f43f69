import JourneyMachine.Value

namespace JourneyMachine

/-- The roots a program sets up. -/
structure Program where
  globals : Array (String × Value) := #[]
  main : Option Handle := none
  argvGlobal : Option Nat := none
deriving DecidableEq, Repr

namespace Program

def define (p : Program) (name : String) (value : Value) : Program :=
  { p with globals := p.globals.push (name, value) }

def global? (p : Program) (index : Nat) : Option Value :=
  p.globals[index]?.map (·.2)

def globalNamed? (p : Program) (name : String) : Option Value :=
  (p.globals.find? (·.1 == name)).map (·.2)

def setGlobal (p : Program) (index : Nat) (value : Value) : Program :=
  { p with globals := p.globals.modify index fun (name, _) => (name, value) }

def handles (p : Program) : List Handle :=
  p.globals.toList.filterMap (·.2.handle?) ++ p.main.toList

end Program

end JourneyMachine
