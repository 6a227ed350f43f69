import JourneyMachine.Value

namespace JourneyMachine

/-- A field of a form; new values must match the guard. -/
structure Essence where
  name : String
  value : Value
  guard : Option Value := none
deriving DecidableEq, Repr, Inhabited

/-- A field that imitations of a form have; values must match the guard. -/
structure Matter where
  name : String
  guard : Option Value := none
deriving DecidableEq, Repr, Inhabited

/-- A class of imitations. -/
structure Form where
  name : String
  essences : List Essence := []
  matter : List Matter := []
  recollections : List Handle := []
  changes : List Handle := []
  imitate : Option Handle := none
  parents : List Handle := []
deriving DecidableEq, Repr, Inhabited

namespace Form

def matterIndex? (f : Form) (name : String) : Option Nat :=
  f.matter.findIdx? (·.name == name)

def essenceIndex? (f : Form) (name : String) : Option Nat :=
  f.essences.findIdx? (·.name == name)

def setEssence (f : Form) (index : Nat) (value : Value) : Form :=
  { f with essences := f.essences.modify index fun e => { e with value } }

def setEssenceGuard (f : Form) (index : Nat) (guard : Value) : Form :=
  { f with essences := f.essences.modify index fun e => { e with guard := some guard } }

def setMatterGuard (f : Form) (index : Nat) (guard : Value) : Form :=
  { f with matter := f.matter.modify index fun m => { m with guard := some guard } }

def children (f : Form) : List Handle :=
  f.essences.flatMap (fun e => e.value.handle?.toList ++ (e.guard.bind Value.handle?).toList) ++
    f.matter.flatMap (fun m => (m.guard.bind Value.handle?).toList) ++
    f.recollections ++ f.changes ++ f.imitate.toList ++ f.parents

end Form

/-- An instance of a form; its matter is laid out like the form's. -/
structure Imitation where
  form : Handle
  matter : Array Value := #[]
deriving DecidableEq, Repr, Inhabited

end JourneyMachine
