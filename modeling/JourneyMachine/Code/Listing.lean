import JourneyMachine.Code.Instruction
import JourneyMachine.Text.Characters

namespace JourneyMachine

namespace Operand

/-- An operand as listed; constants are shown by the given function. -/
def render (describe : Value → String) : Operand → String
  | register index => s!"r{index.toNat}"
  | constant _ value => describe value
  | position target => s!"@{target.toNat}"
  | global index => s!"g{index.toNat}"
  | field index => s!"#{index.toNat}"
  | registers indices => "[" ++ " ".intercalate (indices.map fun r => s!"r{r.toNat}") ++ "]"
  | pairs entries =>
    "\x7b" ++ " ".intercalate (entries.map fun (k, v) => s!"r{k.toNat}: r{v.toNat}") ++ "\x7d"
  | keywords entries =>
    "\x7b" ++ " ".intercalate (entries.map fun ((_, name), r) => s!"{describe name}=r{r.toNat}")
      ++ "\x7d"

end Operand

namespace Instruction

def padLeft (width : Nat) (fill : Char) (text : String) : String :=
  String.ofList (List.replicate (width - text.length) fill) ++ text

def padRight (width : Nat) (text : String) : String :=
  text ++ String.ofList (List.replicate (width - text.length) ' ')

/-- The line of an instruction, without white space at its end. -/
def render (describe : Value → String) (i : Instruction) : String :=
  let line := padLeft 4 '0' (toString i.ip) ++ "  " ++ padRight 18 i.operation.mnemonic ++
    ", ".intercalate (i.operands.map (·.render describe))
  String.ofList (Text.trimEnd line.toList)

end Instruction

namespace Codeblock

def listing (describe : Value → String) (block : Codeblock) : Except Fault String := do
  let instructions ← block.instructions
  return String.join (instructions.map fun i => i.render describe ++ "\n")

end Codeblock

end JourneyMachine
