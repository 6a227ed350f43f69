import JourneyMachine.Code.Interrupt
import JourneyMachine.Machine.Dispatch

namespace JourneyMachine.Run

@[inline] def nextWord : Run Word :=
  onFrame fun f => return (← f.pattern.block.word f.ip, { f with ip := f.ip + 1 })

def nextIndex : Run Nat := return (← nextWord).toNat

def nextValue : Run Value := do register (← nextIndex)

def store (v : Value) : Run Unit := do setRegister (← nextIndex) v

def nextConstant : Run Value := do
  let i ← nextWord
  onFrame fun f => return (← f.pattern.block.constant i, f)

def nextValues : Nat → Run (List Value)
  | 0 => return []
  | count + 1 => do
    let v ← nextValue
    return v :: (← nextValues count)

def nextPairs : Nat → Run (List (Value × Value))
  | 0 => return []
  | count + 1 => do
    let k ← nextValue
    let v ← nextValue
    return (k, v) :: (← nextPairs count)

def countedValues : Run (List Value) := do nextValues (← nextIndex)

def print (content : String) (newline : Bool) : Run Unit := do
  match ← exchange (·.print content newline) with
  | .ok () => return ()
  | .error trouble => report "writing output" trouble

def prompt : Run Value := do
  match ← exchange (·.readText) with
  | .ok line => newText line
  | .error trouble => report "reading input" trouble

def system (command : String) : Run Value := do
  match ← exchange (·.spawn [] "sh" ["-c", command]) with
  | .ok captured => newText (Text.decodeLossy captured.output)
  | .error trouble => report "running command" trouble

/-- Runs a program on an input and returns its output followed by what it wrote to its error
stream. -/
def babel (program input : Value) (args : List Value) : Run Value := do
  let name ← toText program
  let args ← args.mapM toText
  let input ← toText input
  match ← exchange (·.spawn (Text.encode input) name args) with
  | .ok captured =>
    newText (Text.decodeLossy captured.output ++ Text.decodeLossy captured.errors)
  | .error trouble => report s!"cannot run '{name}'" trouble

/-- Ends the run with an exit code, which is the low 32 bits of the numeral. -/
def exit {α : Type} (code : Int64) : Run α := do
  modify fun m => { m with handlers := m.handlers.exit code }
  fail (.exit code.toInt32)

/-- The result of a service, whose operands are read from the instruction stream. -/
def serve (service : Interrupt) : Run Value :=
  match service with
  | .toNumeral => do return .numeral (← toNumeral (← nextValue))
  | .toText => do toTextValue (← nextValue)
  | .toVeracity => do return .veracity (← toVeracity (← nextValue))
  | .toBook => do toBook (← nextValue)
  | .toCodex => do toCodex (← nextValue)
  | .kindof => do genusOf (← nextValue)
  | .length => do return .numeral (← length (← nextValue))
  | .arabic => do newText (Numeral.arabic (← toNumeral (← nextValue)))
  | .roman => do newText (Numeral.roman (← toNumeral (← nextValue)))
  | .ascii => do ascii (← nextValue)
  | .print => do
    print (← toText (← nextValue)) false
    return .ni
  | .println => do
    print (← toText (← nextValue)) true
    return .ni
  | .dump => do
    let v ← nextValue
    print (← onHeap (·.dump v)) false
    return v
  | .prompt => prompt
  | .system => do system (← toText (← nextValue))
  | .exit => do exit (← toNumeral (← nextValue))
  | .random =>
    modifyGet fun m =>
      let (n, random) := m.random.nextNumeral
      (.numeral n, { m with random })
  | .codexNew => do newCodex (← nextPairs (← nextIndex))
  | .bookNew => do newBook (← countedValues).toArray
  | .substr => do
    let source ← nextValue
    let start ← nextValue
    let count ← nextValue
    substr source start count
  | .arrayInsert => do
    let container ← nextValue
    let key ← nextValue
    let new ← nextValue
    insertPage container key new
    return new
  | .arrayDelete => do
    let container ← nextValue
    let key ← nextValue
    delete container key
  | .babel => do
    let program ← nextValue
    let input ← nextValue
    babel program input (← countedValues)
  | .fopen => do
    let filename ← nextValue
    let mode ← nextValue
    let filename ← toText filename
    let mode ← toText mode
    openScroll filename mode

def interrupt : Run Unit := do
  let ip ← onFrame fun f => return (f.ip, f)
  let w ← nextWord
  match Interrupt.ofWord? w with
  | none => fail (.unknownInterrupt w ip)
  | some service => store (← serve service)

end JourneyMachine.Run
