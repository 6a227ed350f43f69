import JourneyMachine.Proofs.Control.Restoration

/-! What a call of a journey should do, apart from how it is done. A pattern takes some arguments by
its parameters alone; it applies if besides every guard matches and the condition holds. Patterns
are looked at in declaration order, and the first that applies runs its body.

Sub-programs may do anything to the machine, so the stages of binding are relations between
machines: each sub-program runs in the machine that the one before it has left. Each stage also
tells the runs of program code it is made of. -/

namespace JourneyMachine

namespace Machine

def slot? (m : Machine) (i : Nat) : Option Value := m.frames.head?.bind fun f => f.registers[i]?

/-- The machine with registers of the frame on top overwritten where a value is given. -/
def assign (m : Machine) (values : Nat → Option Value) : Machine :=
  { m with
    frames := m.frames.modifyHead fun f =>
      { f with registers := f.registers.mapIdx fun i old => (values i).getD old } }

def store (m : Machine) (i : Nat) (v : Value) : Machine :=
  m.assign fun j => if j = i then some v else none

/-- A machine that can call a journey: it holds the journey, or a form whose constructor it is, and
the arguments, and there is room for a frame. -/
structure Poised (m : Machine) (h : Handle) (args : Arguments) : Prop where
  closed : m.Closed
  ordered : m.Ordered
  callee : .journey h ∈ m.held ∨
    ∃ k f, .form k ∈ m.held ∧ m.heap.get? k = some (.form f) ∧ f.imitate = some h
  held : ∀ v ∈ args.values, v ∈ m.held
  room : m.frameDepth < m.settings.maxFrames

end Machine

namespace Pattern

/-- The last value passed for a keyword parameter. -/
def received (p : Pattern) (keywords : List (String × Value)) (index : Nat) : Option Value :=
  (keywords.filter fun k => p.keywordIndex? k.1 = some index).getLast?.map (·.2)

def unknown (p : Pattern) (keywords : List (String × Value)) : List (String × Value) :=
  keywords.filter fun k => p.keywordIndex? k.1 = none

def positionalValues (p : Pattern) (values : List Value) (i : Nat) : Option Value :=
  if i < p.positional.length then values[i]? else none

def keywordValues (p : Pattern) (keywords : List (String × Value)) (i : Nat) : Option Value :=
  if p.keywordRegister 0 ≤ i then p.received keywords (i - p.keywordRegister 0) else none

def surplus (p : Pattern) (values : List Value) : List Value := values.drop p.positional.length

/-- The parameters of a pattern can be filled by the arguments and their defaults. -/
structure Takes (p : Pattern) (args : Arguments) : Prop where
  count : args.positional.length ≤ p.positional.length ∨ p.splat = true
  positional : ∀ i q, p.positional[i]? = some q → args.positional.length ≤ i → q.fallback ≠ none
  names : ∀ k ∈ args.keywords, (∃ q ∈ p.keywords, q.name = k.1) ∨ p.splatsplat = true
  keywords : ∀ i q, p.keywords[i]? = some q → p.received args.keywords i = none → q.fallback ≠ none

/-- The entry points of defaults, guards and the condition. -/
def subPrograms (p : Pattern) : List Nat :=
  (p.positional ++ p.keywords).filterMap (·.fallback) ++
    (p.positional ++ p.keywords).filterMap (·.guard) ++ p.condition.toList

end Pattern

namespace Dispatch

open Run

/-- Stores a value under a name: in place of the value of that name, or as the last entry. -/
def filed : List (String × Value) → String × Value → List (String × Value)
  | [], new => [new]
  | entry :: rest, new => if entry.1 = new.1 then new :: rest else entry :: filed rest new

/-- The entries of a codex are the named values, each under a text of its name. -/
def Spells (heap : Heap) (entries : List (Value × Value)) (named : List (String × Value)) : Prop :=
  List.Forall₂ (fun entry k => (∃ t, entry.1 = .text t ∧ heap.get? t = some (.text k.1)) ∧
    entry.2 = k.2) entries named

variable (env : Env)

section Stages

variable (given : Nat → Option Value) (registerOf : Nat → Nat)

/-- Parameters from the `i`-th on get their values: the given ones, and for each of the others, from
left to right, what its default returns, which is stored before the next default runs. -/
inductive Supplies :
    Nat → List Parameter → Machine → List Value → List (Machine × Machine) → Machine → Prop
  | done {i : Nat} {m : Machine} : Supplies i [] m [] [] m
  | given {i : Nat} {q : Parameter} {rest : List Parameter} {v : Value} {vs : List Value}
      {runs : List (Machine × Machine)} {m m' : Machine} : given i = some v →
      Supplies (i + 1) rest m vs runs m' → Supplies i (q :: rest) m (v :: vs) runs m'
  | fallback {i start : Nat} {q : Parameter} {rest : List Parameter} {v : Value} {vs : List Value}
      {runs : List (Machine × Machine)} {m m₁ m' : Machine} : given i = none →
      q.fallback = some start → evaluate start env m = .ok v m₁ →
      Supplies (i + 1) rest (m₁.store (registerOf i) v) vs runs m' →
      Supplies i (q :: rest) m (v :: vs) ((m, m₁) :: runs) m'

/-- Every guard from the `i`-th parameter on matches the value in the parameter's register. -/
inductive Matches : Nat → List Parameter → Machine → List (Machine × Machine) → Machine → Prop
  | done {i : Nat} {m : Machine} : Matches i [] m [] m
  | unguarded {i : Nat} {q : Parameter} {rest : List Parameter} {runs : List (Machine × Machine)}
      {m m' : Machine} : q.guard = none → Matches (i + 1) rest m runs m' →
      Matches i (q :: rest) m runs m'
  | guarded {i start : Nat} {q : Parameter} {rest : List Parameter} {guard v : Value}
      {runs : List (Machine × Machine)} {m m₁ m₂ m' : Machine} : q.guard = some start →
      evaluate start env m = .ok guard m₁ → m₁.slot? (registerOf i) = some v →
      withPinned [guard] (fits guard v) env m₁ = .ok true m₂ → Matches (i + 1) rest m₂ runs m' →
      Matches i (q :: rest) m ((m, m₁) :: (m₁, m₂) :: runs) m'

end Stages

/-- A pattern with a splat gets a fresh book of the surplus arguments in its register. -/
inductive Splats (p : Pattern) (surplus : List Value) : Machine → Option Handle → Machine → Prop
  | without {m : Machine} : p.splat = false → Splats p surplus m none m
  | book {m m₁ : Machine} {h : Handle} : p.splat = true →
      allocate (.book surplus.toArray) env m = .ok h m₁ → m.Placed (.book surplus.toArray) h m₁ →
      Splats p surplus m (some h) (m₁.store p.splatRegister (.book h))

/-- Keyword arguments are stored in a codex in the order of the call, each under a text of its name;
a later one of an equal name replaces the value of an earlier one. -/
inductive Gathers (target : Handle) : List (String × Value) → Machine → Machine → Prop
  | done {m : Machine} : Gathers target [] m m
  | stored {name : String} {v key : Value} {rest : List (String × Value)} {m m₁ m₂ m' : Machine} :
      newText name env m = .ok key m₁ → codexInsert target key v env m₁ = .ok () m₂ →
      Gathers target rest m₂ m' → Gathers target ((name, v) :: rest) m m'

/-- A pattern with a splatsplat gets a fresh codex in its register, in which the unknown keyword
arguments are stored. -/
inductive Splatsplats (p : Pattern) (unknown : List (String × Value)) :
    Machine → Option Handle → Machine → Prop
  | without {m : Machine} : p.splatsplat = false → Splatsplats p unknown m none m
  | codex {m m₁ m' : Machine} {h : Handle} : p.splatsplat = true →
      allocate (.codex []) env m = .ok h m₁ → m.Placed (.codex []) h m₁ →
      Gathers env h unknown (m₁.store p.splatsplatRegister (.codex h)) m' →
      Splatsplats p unknown m (some h) m'

/-- The condition of a pattern, if it has one, gives a value that is true. -/
inductive Conditions (p : Pattern) : Machine → List (Machine × Machine) → Machine → Prop
  | without {m : Machine} : p.condition = none → Conditions p m [] m
  | true {start : Nat} {v : Value} {m m₁ m' : Machine} : p.condition = some start →
      evaluate start env m = .ok v m₁ → toVeracity v env m₁ = .ok true m' →
      Conditions p m [(m, m₁), (m₁, m')] m'

/-- What the parameters of a pattern were bound to, and the runs of program code this took, each by
the machines before and after it. -/
structure Bound where
  positional : List Value
  splat : Option Handle
  keywords : List Value
  splatsplat : Option Handle
  runs : List (Machine × Machine)

/-- A pattern applies to the arguments in the machine with its frame on top, and its body is entered
in the machine `entry`. -/
structure Applies (p : Pattern) (args : Arguments) (m : Machine) (bound : Bound)
    (entry : Machine) : Prop where
  takes : p.Takes args
  stages : ∃ m₁ m₂ m₃ m₄ m₅ m₆ runs₁ runs₂ runs₃ runs₄ runs₅,
    Supplies env (args.positional[·]?) id 0 p.positional
      (m.assign (p.positionalValues args.positional)) bound.positional runs₁ m₁ ∧
    Splats env p (p.surplus args.positional) m₁ bound.splat m₂ ∧
    Supplies env (p.received args.keywords) p.keywordRegister 0 p.keywords
      (m₂.assign (p.keywordValues args.keywords)) bound.keywords runs₂ m₃ ∧
    Splatsplats env p (p.unknown args.keywords) m₃ bound.splatsplat m₄ ∧
    Matches env id 0 p.positional m₄ runs₃ m₅ ∧
    Matches env p.keywordRegister 0 p.keywords m₅ runs₄ m₆ ∧
    Conditions env p m₆ runs₅ entry ∧
    bound.runs = runs₁ ++ runs₂ ++ runs₃ ++ runs₄ ++ runs₅

/-- Program code left the book and the codex that binding made as they were, and the texts that are
keys of the codex. -/
structure Spares (p : Pattern) (before after : Machine) : Prop where
  book : p.splat = true → ∀ h, before.slot? p.splatRegister = some (.book h) →
    after.heap.get? h = before.heap.get? h
  codex : p.splatsplat = true → ∀ h, before.slot? p.splatsplatRegister = some (.codex h) →
    after.heap.get? h = before.heap.get? h ∧ ∀ entries, before.heap.get? h = some (.codex entries) →
      ∀ entry ∈ entries, ∀ t, entry.1 = .text t → after.heap.get? t = before.heap.get? t

/-- A machine in which the body of a pattern is entered. The registers of the parameters hold what
they were bound to; the book and the codex have the contents they were made with if no program code
that ran for the binding has edited them. -/
structure Holds (p : Pattern) (args : Arguments) (bound : Bound) (entry : Machine) : Prop where
  given : ∀ i v, i < p.positional.length → args.positional[i]? = some v → entry.slot? i = some v
  positional : ∀ i < p.positional.length, ∃ v, bound.positional[i]? = some v ∧
    entry.slot? i = some v
  splat : p.splat = true → ∃ h, bound.splat = some h ∧
    entry.slot? p.splatRegister = some (.book h) ∧
    ((∀ run ∈ bound.runs, Spares p run.1 run.2) →
      entry.heap.get? h = some (.book (p.surplus args.positional).toArray))
  received : ∀ i v, p.received args.keywords i = some v →
    entry.slot? (p.keywordRegister i) = some v
  keywords : ∀ i < p.keywords.length, ∃ v, bound.keywords[i]? = some v ∧
    entry.slot? (p.keywordRegister i) = some v
  splatsplat : p.splatsplat = true → ∃ h, bound.splatsplat = some h ∧
    entry.slot? p.splatsplatRegister = some (.codex h) ∧
    ((∀ run ∈ bound.runs, Spares p run.1 run.2) →
      ∃ entries, entry.heap.get? h = some (.codex entries) ∧
        Spells entry.heap entries ((p.unknown args.keywords).foldl filed []))

/-- The patterns of a journey are looked at in order, and the body of the first that applies is run
in a frame of its own. An end of a sub-program that is no value is the end of the call. -/
inductive Dispatched (h : Handle) (name : String) (args : Arguments) :
    List Pattern → Machine → EStateM.Result Unwind Machine Value → Prop
  | exhausted {m : Machine} : Dispatched h name args [] m (complain (.noPatternMatches name) env m)
  | applied {p : Pattern} {rest : List Pattern} {m entry : Machine} {bound : Bound} :
      Applies env p args (m.enter h p) bound entry → Holds p args bound entry →
      Dispatched h name args (p :: rest) m
        (leaving m.frames.length (evaluate p.start env entry))
  | refused {p : Pattern} {rest : List Pattern} {m m' : Machine}
      {result : EStateM.Result Unwind Machine Value} :
      bindArguments evaluate p args env (m.enter h p) = .ok false m' →
      (∀ bound entry, ¬ Applies env p args (m.enter h p) bound entry) →
      Dispatched h name args rest (m'.unwindTo m.frames.length) result →
      Dispatched h name args (p :: rest) m result
  | unwound {p : Pattern} {rest : List Pattern} {m m' : Machine} {unwind : Unwind} :
      bindArguments evaluate p args env (m.enter h p) = .error unwind m' →
      (∀ bound entry, ¬ Applies env p args (m.enter h p) bound entry) →
      Dispatched h name args (p :: rest) m (leaving m.frames.length (.error unwind m'))

/-- A sub-program of a pattern that returns leaves the registers which binding fills as they are,
and leaves no handler of its frame behind where there was none. -/
def Modest (p : Pattern) (start : Nat) : Prop :=
  ∀ m f below v m', m.frames = f :: below → f.pattern = p →
    (∀ record ∈ m.handlers.records, record.frame < below.length) →
    evaluate start env m = .ok v m' →
    (∀ record ∈ m'.handlers.records, record.frame < below.length) ∧
    ∀ i < p.boundRegisters, m'.slot? i = m.slot? i

end Dispatch

end JourneyMachine
