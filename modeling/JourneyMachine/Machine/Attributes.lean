import JourneyMachine.Machine.Operators

namespace JourneyMachine.Run

/-- Whether a candidate fits a pattern. `visiting` holds the books around the pattern: a book that
is reached again through itself matches nothing new. -/
def matchesWithin : Nat → List Handle → Value → Value → Run Bool
  | 0, _, _, _ => tooDeep
  | room + 1, visiting, pattern, candidate =>
    match pattern with
    | .form h =>
      match candidate with
      | .imitation i => do
        let own := (← imitation i).form
        onHeap (·.isDescendant own h)
      | _ => return false
    | .journey _ => do toVeracity (← call pattern [candidate])
    | .text h => do
      match Genus.ofName? (← text h) with
      | some genus =>
        if genus ≠ .other ∧ candidate.genus = genus then return true else eql pattern candidate
      | none => eql pattern candidate
    | .book h =>
      if h ∈ visiting then return false
      else do
        let pages := (← book h).toList
        withPinned pages
          (pages.anyM fun page => matchesWithin room (h :: visiting) page candidate)
    | .other h => do
      match ← other h with
      | .both lhs rhs =>
        if ← matchesWithin room visiting lhs candidate then
          matchesWithin room visiting rhs candidate
        else return false
      | .either lhs rhs =>
        if ← matchesWithin room visiting lhs candidate then return true
        else matchesWithin room visiting rhs candidate
      | .opposite inner => return !(← matchesWithin room visiting inner candidate)
      | .host _ => toVeracity (← call pattern [candidate])
      | .scroll _ => return pattern = candidate
    | .ni | .veracity _ | .numeral _ => eql pattern candidate
    | .imitation _ | .codex _ => do complain (.cannotMatch (← typeName pattern))

/-- Room for a path through every book, and for a chain of helpers between one book and the next. -/
def matchingRoom (capacity : Nat) : Nat := capacity * (capacity + 1) + capacity

/-- Whether a candidate fits a pattern. There is room for it however little the computation may
nest. -/
def fits (pattern candidate : Value) : Run Bool := do
  let capacity := (← get).heap.capacity
  matchesWithin ((← depth) + matchingRoom capacity + 1) [] pattern candidate

def scrollMethod? : String → Option (ScrollMethod × Nat)
  | "write" => some (.write, 2)
  | "read" => some (.read, 2)
  | "readall" => some (.readAll, 1)
  | "seek" => some (.seek, 3)
  | "tell" => some (.tell, 1)
  | "close" => some (.close, 1)
  | _ => none

/-- An attribute of a scroll; other objects of genus `Other` have none. -/
def scrollAttribute? (h : Handle) (name : String) : Run (Option Value) := do
  match ← other h with
  | .scroll s =>
    match name with
    | "filename" => return some (← newText s.filename)
    | "mode" => return some (← newText s.mode)
    | _ =>
      match scrollMethod? name with
      | some (method, arity) =>
        let journey : HostJourney :=
          { name := "Scroll." ++ name, arity := some arity, routine := .scroll method }
        return some (.other (← allocate (.other (.host journey))))
      | none => return none
  | _ => return none

def attribute? (v : Value) (name : String) : Run (Option Value) :=
  if name = "genus" then return some (← genusOf v)
  else if name = "length" then return some (.numeral (← length v))
  else
    match v with
    | .form h => onHeap (·.attribute? h name)
    | .imitation h => do
      let own := (← imitation h).form
      match ← onHeap (·.change? own name) with
      | some change => return some (.journey change)
      | none =>
        match (← form own).matterIndex? name with
        | none => return none
        | some i => return (← imitation h).matter[i]?
    | .book _ | .text _ =>
      if name = "verso" then return some (← index v (.numeral 1))
      else if name = "recto" then return some (← index v (.numeral (-1)))
      else return none
    | .journey h =>
      if name = "arity" then return some (.numeral (Int64.ofNat (← journey h).arity))
      else return none
    | .other h => scrollAttribute? h name
    | _ => return none

/-- Throws unless a new value of a field matches the field's guard. -/
def checkGuard (guard : Option Value) (new : Value) (owner field : String) : Run Unit :=
  match guard with
  | none => return ()
  | some guard => do
    if ← withPinned [new] (fits guard new) then return ()
    else complain (.fieldGenus (← typeName new) field owner)

def setPadded (values : Array Value) (i : Nat) (v : Value) : Array Value :=
  (values ++ Array.replicate (i + 1 - values.size) Value.ni).setIfInBounds i v

def setAttribute (v : Value) (name : String) (new : Value) : Run Bool :=
  match v with
  | .form h => do
    let f ← form h
    match f.essenceIndex? name with
    | none => return false
    | some i =>
      checkGuard (f.essences[i]?.bind (·.guard)) new f.name name
      editForm h (·.setEssence i new)
      return true
  | .imitation h => do
    let f ← form (← imitation h).form
    match f.matterIndex? name with
    | none => return false
    | some i =>
      checkGuard (f.matter[i]?.bind (·.guard)) new f.name name
      editImitation h fun im => { im with matter := setPadded im.matter i new }
      return true
  | .book _ =>
    if name = "verso" then do
      indexAssign v (.numeral 1) new
      return true
    else if name = "recto" then do
      indexAssign v (.numeral (-1)) new
      return true
    else return false
  | _ => return false

end JourneyMachine.Run
