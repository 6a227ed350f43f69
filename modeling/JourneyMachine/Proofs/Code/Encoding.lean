import JourneyMachine.Proofs.Code.Operands

namespace JourneyMachine

namespace Operand

def kind : Operand → OperandKind
  | register _ => .register
  | constant .. => .constant
  | position _ => .position
  | global _ => .global
  | field _ => .field
  | registers _ => .registers
  | pairs _ => .pairs
  | keywords _ => .keywords

def words : Operand → List Word
  | register w | constant w _ | position w | global w | field w => [w]
  | registers indices => UInt32.ofNat indices.length :: indices
  | pairs entries => UInt32.ofNat entries.length :: entries.flatMap fun (a, b) => [a, b]
  | keywords entries => UInt32.ofNat entries.length :: entries.flatMap fun ((k, _), r) => [k, r]

def constants : Operand → List (Value × Word)
  | constant w v => [(v, w)]
  | keywords entries => entries.map fun ((k, v), _) => (v, k)
  | _ => []

end Operand

def Operation.words : Operation → List Word
  | opcode op => [op.word]
  | interrupt service => [Opcode.int.word, service.word]

theorem Opcode.ofWord?_eq_find {w : Word} (assigned : w.toNat < 128) :
    ofWord? w = all.find? fun x => x.word.toNat == w.toNat := by
  simp [ofWord?, table, assigned]

theorem Opcode.ofWord?_word (op : Opcode) : ofWord? op.word = some op := by
  have assigned : op.word.toNat < 128 := by cases op <;> decide
  rw [ofWord?_eq_find assigned]
  cases op <;> decide

theorem Interrupt.ofWord?_eq_find {w : Word} (assigned : w.toNat < 128) :
    ofWord? w = all.find? fun x => x.word.toNat == w.toNat := by
  simp [ofWord?, table, assigned]

theorem Interrupt.ofWord?_word (service : Interrupt) : ofWord? service.word = some service := by
  have assigned : service.word.toNat < 128 := by cases service <;> decide
  rw [ofWord?_eq_find assigned]
  cases service <;> decide

namespace Codeblock

/-- The words stand in the code from a position on. -/
def Spelled (block : Codeblock) (ip : Nat) (words : List Word) : Prop :=
  words <+: block.code.toList.drop ip

/-- The places that are referred to hold the values. -/
def Pooled (block : Codeblock) (constants : List (Value × Word)) : Prop :=
  ∀ c ∈ constants, block.constants[c.2.toNat]? = some c.1

variable {block : Codeblock} {ip : Nat} {w : Word} {ws us : List Word}

section Words

theorem Spelled.cons (spelled : block.Spelled ip (w :: ws)) :
    block.word ip = .ok w ∧ block.Spelled (ip + 1) ws := by
  obtain ⟨rest, same⟩ := spelled
  have inside : ip < block.code.toList.length := by
    by_contra outside
    rw [List.drop_eq_nil_of_le (by omega)] at same
    simp at same
  rw [List.drop_eq_getElem_cons inside, List.cons_append, List.cons.injEq] at same
  constructor
  · have here : block.code[ip]? = some w := by
      rw [Array.getElem?_eq_getElem (by simpa using inside), same.1]
      simp
    simp [word, here]
  · exact ⟨rest, same.2⟩

theorem Spelled.append (spelled : block.Spelled ip (ws ++ us)) :
    block.Spelled ip ws ∧ block.Spelled (ip + ws.length) us := by
  constructor
  · exact (List.prefix_append ws us).trans spelled
  · obtain ⟨rest, same⟩ := spelled
    refine ⟨rest, ?_⟩
    rw [← List.drop_drop, ← same]
    simp

theorem Spelled.length_le (spelled : block.Spelled ip ws) : ws.length ≤ block.code.size - ip := by
  simpa using List.IsPrefix.length_le spelled

theorem wordsAt_spelled (spelled : block.Spelled ip ws) :
    block.wordsAt ws.length ip = .ok (ws, ip + ws.length) := by
  induction ws generalizing ip with
  | nil => rfl
  | cons w ws ih =>
    obtain ⟨first, rest⟩ := spelled.cons
    have later := ih rest
    have shift : ip + 1 + ws.length = ip + (w :: ws).length := by
      simp only [List.length_cons]
      omega
    rw [shift] at later
    exact (bind_ok).mpr ⟨w, first, (bind_ok).mpr ⟨_, later, rfl⟩⟩

theorem pairsAt_spelled {entries : List (Word × Word)}
    (spelled : block.Spelled ip (entries.flatMap fun (a, b) => [a, b])) :
    block.pairsAt entries.length ip = .ok (entries, ip + 2 * entries.length) := by
  induction entries generalizing ip with
  | nil => rfl
  | cons e rest ih =>
    obtain ⟨a, b⟩ := e
    obtain ⟨first, spelled⟩ := spelled.cons
    obtain ⟨second, spelled⟩ := spelled.cons
    have later := ih spelled
    have shift : ip + 1 + 1 + 2 * rest.length = ip + 2 * ((a, b) :: rest).length := by
      simp only [List.length_cons]
      omega
    rw [shift] at later
    exact (bind_ok).mpr ⟨a, first, (bind_ok).mpr ⟨b, second, (bind_ok).mpr ⟨_, later, rfl⟩⟩⟩

theorem constant_pooled {v : Value} (pooled : block.constants[w.toNat]? = some v) :
    block.constant w = .ok v := by
  simp [constant, pooled]

theorem keywordsAt_spelled {entries : List ((Word × Value) × Word)}
    (spelled : block.Spelled ip (entries.flatMap fun ((k, _), r) => [k, r]))
    (pooled : block.Pooled (entries.map fun ((k, v), _) => (v, k))) :
    block.keywordsAt entries.length ip = .ok (entries, ip + 2 * entries.length) := by
  induction entries generalizing ip with
  | nil => rfl
  | cons e rest ih =>
    obtain ⟨⟨k, v⟩, r⟩ := e
    obtain ⟨first, spelled⟩ := spelled.cons
    obtain ⟨second, spelled⟩ := spelled.cons
    have value := constant_pooled (pooled (v, k) (by simp))
    have later := ih spelled fun c member => pooled c (List.mem_cons_of_mem _ member)
    have shift : ip + 1 + 1 + 2 * rest.length = ip + 2 * (((k, v), r) :: rest).length := by
      simp only [List.length_cons]
      omega
    rw [shift] at later
    exact (bind_ok).mpr ⟨k, first, (bind_ok).mpr ⟨v, value, (bind_ok).mpr ⟨r, second,
      (bind_ok).mpr ⟨_, later, rfl⟩⟩⟩⟩

end Words

section Operands

theorem toNat_ofNat {n : Nat} (bound : n < 2 ^ 32) : (UInt32.ofNat n).toNat = n := by
  rw [UInt32.toNat_ofNat']
  exact Nat.mod_eq_of_lt bound

theorem operandAt_spelled (operand : Operand) (spelled : block.Spelled ip operand.words)
    (pooled : block.Pooled operand.constants) (bound : operand.words.length ≤ 2 ^ 32) :
    block.operandAt operand.kind ip = .ok (operand, ip + operand.words.length) := by
  cases operand with
  | register w | position w | global w | field w =>
    obtain ⟨first, _⟩ := spelled.cons
    exact (bind_ok).mpr ⟨w, first, rfl⟩
  | constant w v =>
    obtain ⟨first, _⟩ := spelled.cons
    have value := constant_pooled (pooled (v, w) (by simp [Operand.constants]))
    exact (bind_ok).mpr ⟨w, first, (bind_ok).mpr ⟨v, value, rfl⟩⟩
  | registers indices =>
    obtain ⟨first, rest⟩ := spelled.cons
    simp only [Operand.words, List.length_cons] at bound ⊢
    have later := wordsAt_spelled rest
    have count := toNat_ofNat (n := indices.length) (by omega)
    refine (bind_ok).mpr ⟨_, first, (bind_ok).mpr ⟨_, by rw [count]; exact later, ?_⟩⟩
    simp only [Nat.add_assoc, Nat.add_comm 1]
    rfl
  | pairs entries =>
    obtain ⟨first, rest⟩ := spelled.cons
    have length : (entries.flatMap fun (a, b) => [a, b]).length = 2 * entries.length := by
      simp [List.length_flatMap, Nat.mul_comm]
    simp only [Operand.words, List.length_cons, length] at bound ⊢
    have later := pairsAt_spelled rest
    have count := toNat_ofNat (n := entries.length) (by omega)
    refine (bind_ok).mpr ⟨_, first, (bind_ok).mpr ⟨_, by rw [count]; exact later, ?_⟩⟩
    simp only [Nat.add_assoc, Nat.add_comm 1]
    rfl
  | keywords entries =>
    obtain ⟨first, rest⟩ := spelled.cons
    have length : (entries.flatMap fun ((k, _), r) => [k, r]).length = 2 * entries.length := by
      simp [List.length_flatMap, Nat.mul_comm]
    simp only [Operand.words, List.length_cons, length] at bound ⊢
    have later := keywordsAt_spelled rest pooled
    have count := toNat_ofNat (n := entries.length) (by omega)
    refine (bind_ok).mpr ⟨_, first, (bind_ok).mpr ⟨_, by rw [count]; exact later, ?_⟩⟩
    simp only [Nat.add_assoc, Nat.add_comm 1]
    rfl

theorem operandsAt_spelled (operands : List Operand)
    (spelled : block.Spelled ip (operands.flatMap Operand.words))
    (pooled : block.Pooled (operands.flatMap Operand.constants))
    (bound : (operands.flatMap Operand.words).length ≤ 2 ^ 32) :
    block.operandsAt (operands.map Operand.kind) ip =
      .ok (operands, ip + (operands.flatMap Operand.words).length) := by
  induction operands generalizing ip with
  | nil => rfl
  | cons operand rest ih =>
    simp only [List.flatMap_cons, List.length_append] at spelled pooled bound ⊢
    obtain ⟨first, others⟩ := spelled.append
    have read := operandAt_spelled operand first
      (fun c member => pooled c (List.mem_append_left _ member)) (by omega)
    have later := ih others (fun c member => pooled c (List.mem_append_right _ member)) (by omega)
    rw [Nat.add_assoc] at later
    exact (bind_ok).mpr ⟨_, read, (bind_ok).mpr ⟨_, later, rfl⟩⟩

end Operands

end Codeblock

namespace Instruction

def words (i : Instruction) : List Word := i.operation.words ++ i.operands.flatMap Operand.words

/-- An instruction as it can be decoded: its operands are those of what it does, and it ends after
its last word. -/
structure Regular (i : Instruction) : Prop where
  service : i.operation ≠ .opcode .int
  layout : i.operands.map Operand.kind = i.operation.layout
  next : i.next = i.ip + i.words.length

theorem words_ne_nil (i : Instruction) : 0 < i.words.length := by
  obtain ⟨_, operation, _, _⟩ := i
  cases operation <;> simp [words, Operation.words]

/-- Instructions that stand one after the other from a position to another. -/
def Tiles : Nat → List Instruction → Nat → Prop
  | ip, [], last => ip = last
  | ip, i :: rest, last => i.ip = ip ∧ Tiles i.next rest last

theorem Tiles.concat {ip : Nat} {list : List Instruction} {i : Instruction}
    (tiles : Tiles ip list i.ip) : Tiles ip (list ++ [i]) i.next := by
  induction list generalizing ip with
  | nil => exact ⟨tiles.symm, rfl⟩
  | cons j rest ih => exact ⟨tiles.1, ih tiles.2⟩

end Instruction

namespace Codeblock

variable {block : Codeblock} {ip last room : Nat} {i : Instruction} {list : List Instruction}

open Instruction (Tiles Regular)

theorem operationAt_spelled (operation : Operation) (service : operation ≠ .opcode .int)
    (spelled : block.Spelled ip operation.words) :
    block.operationAt ip = .ok (operation, ip + operation.words.length) := by
  cases operation with
  | opcode op =>
    obtain ⟨first, _⟩ := spelled.cons
    refine (bind_ok).mpr ⟨_, first, ?_⟩
    rw [Opcode.ofWord?_word]
    split
    · contradiction
    · rename_i same
      cases same
      contradiction
    · rename_i other same
      cases same
      rfl
  | interrupt s =>
    obtain ⟨first, rest⟩ := spelled.cons
    obtain ⟨second, _⟩ := rest.cons
    refine (bind_ok).mpr ⟨_, first, ?_⟩
    simp only [Opcode.ofWord?_word]
    refine (bind_ok).mpr ⟨_, second, ?_⟩
    simp only [Interrupt.ofWord?_word]
    rfl

theorem instructionAt_spelled (regular : i.Regular) (spelled : block.Spelled i.ip i.words)
    (pooled : block.Pooled (i.operands.flatMap Operand.constants))
    (bound : i.words.length ≤ 2 ^ 32) : block.instructionAt i.ip = .ok i := by
  obtain ⟨first, rest⟩ := Spelled.append spelled
  simp only [Instruction.words, List.length_append] at bound
  have operation := operationAt_spelled i.operation regular.service first
  have operands := operandsAt_spelled i.operands rest pooled (by omega)
  rw [regular.layout, Nat.add_assoc, ← List.length_append] at operands
  refine (bind_ok).mpr ⟨_, operation, (bind_ok).mpr ⟨_, operands, ?_⟩⟩
  have next := regular.next
  rw [Instruction.words] at next
  rw [← next]
  rfl

/-- Instructions that fill the code from a position on are decoded from there. -/
theorem instructionsFrom_spelled (regular : ∀ i ∈ list, i.Regular)
    (tiles : Tiles ip list block.code.size)
    (spelled : block.Spelled ip (list.flatMap Instruction.words))
    (pooled : ∀ i ∈ list, block.Pooled (i.operands.flatMap Operand.constants))
    (bound : block.code.size ≤ 2 ^ 32) (enough : block.code.size ≤ ip + room) :
    block.instructionsFrom room ip = .ok list := by
  induction list generalizing ip room with
  | nil =>
    have done : ip = block.code.size := tiles
    cases room with
    | zero => rfl
    | succ room =>
      rw [instructionsFrom, if_neg (by omega)]
  | cons i rest ih =>
    obtain ⟨rfl, later⟩ := tiles
    obtain ⟨own, others⟩ := Spelled.append spelled
    have positive := i.words_ne_nil
    have fits := own.length_le
    have here := regular i (List.mem_cons_self ..)
    have next := here.next
    have decoded := instructionAt_spelled here own (pooled i (List.mem_cons_self ..)) (by omega)
    obtain ⟨room, rfl⟩ : ∃ k, room = k + 1 := ⟨room - 1, by omega⟩
    rw [← next] at others
    have tail : block.instructionsFrom room i.next = .ok rest :=
      ih (fun j member => regular j (List.mem_cons_of_mem _ member)) later others
        (fun j member => pooled j (List.mem_cons_of_mem _ member)) (by omega)
    rw [instructionsFrom, if_pos (by omega)]
    exact (bind_ok).mpr ⟨i, decoded, (bind_ok).mpr ⟨rest, tail, rfl⟩⟩

end Codeblock

end JourneyMachine
