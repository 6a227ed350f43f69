import JourneyMachine.Machine.Attributes

namespace JourneyMachine.Run

open Host (Exchange Platform)

def openScroll (filename mode : String) : Run Value := do
  match ← exchange (Scroll.ofFile filename mode) with
  | .ok scroll => return .other (← allocate (.other (.scroll scroll)))
  | .error trouble => report s!"cannot open file '{filename}'" trouble

/-- Runs an operation on the scroll in a value; `what` names it in messages. -/
def onScroll {α : Type} (v : Value) (what : String)
    (action : Scroll → Platform → Exchange (α × Scroll)) : Run α :=
  match v with
  | .other h => do
    match ← other h with
    | .scroll s =>
      match ← exchange (action s) with
      | .ok (answer, s) =>
        update h fun
          | .other (.scroll _) => .other (.scroll s)
          | object => object
        return answer
      | .error trouble => report s!"cannot {what} '{s.filename}'" trouble
    | _ => do complain (.notScroll (← typeName v))
  | _ => do complain (.notScroll (← typeName v))

def scrollWrite (scroll content : Value) : Run Value := do
  let text ← toText content
  onScroll scroll "write to" (Scroll.write text)
  return .ni

/-- Reads that many bytes, a line for a line feed, or all that is left for ni and zero. -/
def scrollRead (scroll amount : Value) : Run Value :=
  match amount with
  | .ni => do newText (← onScroll scroll "read" Scroll.readAll)
  | .numeral n =>
    if n = 0 then do newText (← onScroll scroll "read" Scroll.readAll)
    else if n.toInt < 0 then complain .negativeRead
    else do newText (← onScroll scroll "read" (Scroll.read n.toInt.toNat))
  | .text h => do
    if (← text h) = "\n" then newText (← onScroll scroll "read" Scroll.readLine)
    else complain (.readArgument Genus.text.name)
  | other => do complain (.readArgument (← typeName other))

def scrollSeek (scroll offset whence : Value) : Run Value := do
  let offset ← toNumeral offset
  let whence ← toNumeral whence
  return .numeral (Int64.ofNat (← onScroll scroll "seek" (Scroll.seek offset whence)))

/-- Runs a scroll journey on its arguments; missing ones are ni. -/
def runScrollMethod (method : ScrollMethod) (args : List Value) : Run Value :=
  let arg (i : Nat) : Value := args.getD i .ni
  match method with
  | .write => scrollWrite (arg 0) (arg 1)
  | .read => scrollRead (arg 0) (arg 1)
  | .readAll => do newText (← onScroll (arg 0) "read" Scroll.readAll)
  | .seek => scrollSeek (arg 0) (arg 1) (arg 2)
  | .tell => do
    return .numeral (Int64.ofNat (← onScroll (arg 0) "get the offset of" Scroll.tell))
  | .close => do
    onScroll (arg 0) "close" Scroll.close
    return .ni

def collect : Run SweepCounts := modifyGet fun m => m.collect

def runProbe (probe : Probe) (args : Arguments) : Run Value :=
  match probe with
  | .first => return args.positional.head?.getD .ni
  | .collect => do
    discard collect
    return args.positional.head?.getD .ni
  | .handlers => return .numeral (Int64.ofNat (← get).handlers.depth)
  | .frames => return .numeral (Int64.ofNat (← get).frameDepth)
  | .live => return .numeral (Int64.ofNat (← get).heap.stats.live)
  | .count =>
    let none := args.positional = [] ∧ args.keywords = []
    return .numeral (Int64.ofNat
      (100 * args.positional.length + 10 * args.keywords.length + if none then 1 else 0))
  | .fail => complain .hostFailure

/-- Calls a host journey, which must be given as many positional arguments as its arity says. -/
def callHost (journey : HostJourney) (args : Arguments) : Run Value := do
  let given := args.positional.length
  match journey.arity with
  | some arity =>
    if arity ≠ given then complain (.argumentCount journey.name arity given)
  | none => pure ()
  match journey.routine with
  | .scroll method => runScrollMethod method args.positional
  | .probe probe => runProbe probe args

end JourneyMachine.Run
