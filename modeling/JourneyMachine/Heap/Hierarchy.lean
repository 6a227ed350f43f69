import JourneyMachine.Heap.Basic

/-!
# Form hierarchy

Looking names up in a form and its ancestors, depth first and in declaration order. A chain of
ancestors without repetition has at most as many members as the heap has slots, so a longer chain
goes round in circles; the search then ends with a fault.
-/

namespace JourneyMachine.Heap

/-- How long a chain of forms may be. -/
def chainRoom (heap : Heap) : Nat := heap.capacity + 1

def descendsWithin (heap : Heap) (ancestor : Handle) : Nat → Handle → Except Fault Bool
  | room, form =>
    if form = ancestor then .ok true
    else
      match room with
      | 0 => .error .tooDeep
      | room + 1 => do
        let f ← heap.form form
        f.parents.anyM (heap.descendsWithin ancestor room)

def isDescendant (heap : Heap) (form ancestor : Handle) : Except Fault Bool :=
  heap.descendsWithin ancestor heap.chainRoom form

def journeyNamed? (heap : Heap) (name : String) (journeys : List Handle) :
    Except Fault (Option Handle) :=
  journeys.findM? fun h => return (← heap.journey h).name == name

def changeWithin (heap : Heap) (name : String) : Nat → Handle → Except Fault (Option Handle)
  | 0, _ => .error .tooDeep
  | room + 1, form => do
    let f ← heap.form form
    match ← heap.journeyNamed? name f.changes with
    | some change => return some change
    | none => f.parents.findSomeM? (heap.changeWithin name room)

def change? (heap : Heap) (form : Handle) (name : String) : Except Fault (Option Handle) :=
  heap.changeWithin name heap.chainRoom form

def changeOf? (heap : Heap) (v : Value) (name : String) : Except Fault (Option Handle) :=
  match v with
  | .imitation h => do heap.change? (← heap.imitation h).form name
  | _ => .ok none

/-- The recollection of that name, or else the value of the essence of that name, of a form or its
ancestors, within a bounded chain. -/
def attributeWithin (heap : Heap) (name : String) : Nat → Handle → Except Fault (Option Value)
  | 0, _ => .error .tooDeep
  | room + 1, form => do
    let f ← heap.form form
    match ← heap.journeyNamed? name f.recollections with
    | some recollection => return some (.journey recollection)
    | none =>
      match f.essences.find? (·.name == name) with
      | some essence => return some essence.value
      | none => f.parents.findSomeM? (heap.attributeWithin name room)

def attribute? (heap : Heap) (form : Handle) (name : String) : Except Fault (Option Value) :=
  heap.attributeWithin name heap.chainRoom form

def isScroll (heap : Heap) (h : Handle) : Bool :=
  match heap.other h with
  | .ok (.scroll _) => true
  | _ => false

/-- The name messages use for a value: the form's name for an imitation, otherwise the genus. -/
def typeName (heap : Heap) (v : Value) : Except Fault String :=
  match v with
  | .imitation h => do return (← heap.form (← heap.imitation h).form).name
  | .other h => .ok (if heap.isScroll h then "Scroll" else Genus.other.name)
  | v => .ok v.genus.name

/-- The message of an imitation of an exception form or a descendant: its first matter, if that is
a text. -/
def exceptionMessage? (heap : Heap) (exception : Handle) (v : Value) : Option String :=
  match v with
  | .imitation h =>
    match heap.imitation h with
    | .error _ => none
    | .ok i =>
      match heap.isDescendant i.form exception with
      | .ok true =>
        match i.matter.toList with
        | .text t :: _ => (heap.text t).toOption
        | _ => none
      | _ => none
  | _ => none

end JourneyMachine.Heap
