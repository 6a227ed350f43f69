import JourneyMachine.Proofs.Code.Orders

/-! What an assembler produces. At every moment the code is the symbols of the order with holes for
the labels, and the holes are the fixups; in the end each hole takes the position its label was
bound to last. -/

namespace JourneyMachine

namespace Assembler

structure Draft.Lawful (d : Draft) : Prop where
  service : d.operation ≠ .opcode .int
  layout : d.requests.map Request.kind = d.operation.layout

/-- The assembler stands at what the order says. -/
structure Keeps (reserved : Nat) (a : Assembler) (o : Order) : Prop where
  code : a.code.toList = spell (fun _ => hole) o.symbols
  fixups : a.fixups = fixupsFrom 0 o.symbols
  tiles : ∀ place, Instruction.Tiles 0 (o.drafts.map (Draft.resolve place)) a.position
  lawful : ∀ d ∈ o.drafts, d.Lawful
  pooled : ∀ d ∈ o.drafts, ∀ c ∈ d.constants, c ∈ o.constants
  constants : ∀ c ∈ o.constants, ∃ i, a.constants[i]? = some c.1 ∧ c.2 = UInt32.ofNat i
  distinct : a.constants.toList.Nodup
  registers : o.registers = (List.range' reserved o.registers.length).map UInt32.ofNat
  count : a.registers = reserved + o.registers.length
  references : ∀ l ∈ o.references, l ∈ o.labels
  labels : ∀ l ∈ o.labels, a.labels[l.index]? = some (o.position? l)
  bindings : ∀ b ∈ o.bindings, b.1 ∈ o.labels ∧ b.2 ≤ a.position ∧
    (b.2 = a.position ∨ ∃ d ∈ o.drafts, d.ip = b.2)

namespace Keeps

variable {reserved : Nat} {a : Assembler} {o : Order} {l : Label}

theorem start : Keeps reserved (withRegisters reserved) {} where
  code := rfl
  fixups := rfl
  tiles _ := rfl
  lawful := by simp
  pooled := by simp
  constants := by simp
  distinct := List.nodup_nil
  registers := rfl
  count := rfl
  references := by simp [Order.references, Order.symbols, labelsOf]
  labels := by simp
  bindings := by simp

theorem register (kept : Keeps reserved a o) :
    Keeps reserved a.register.2 (o.allot a.register.1) where
  code := kept.code
  fixups := kept.fixups
  tiles := kept.tiles
  lawful := kept.lawful
  pooled := kept.pooled
  constants := kept.constants
  distinct := kept.distinct
  registers := by
    simp only [Order.allot, Assembler.register, List.length_append, List.length_singleton,
      List.range'_1_concat, List.map_append, kept.count, ← kept.registers]
    rfl
  count := by
    simp only [Order.allot, Assembler.register, List.length_append, List.length_singleton,
      kept.count]
    omega
  references := kept.references
  labels := kept.labels
  bindings := kept.bindings

theorem constant (kept : Keeps reserved a o) (value : Value) :
    Keeps reserved (a.constant value).2 (o.pool value (a.constant value).1) := by
  have later : ∀ d ∈ o.drafts, ∀ c ∈ d.constants,
      c ∈ (o.pool value (a.constant value).1).constants := fun d member c used =>
    List.mem_append_left _ (kept.pooled d member c used)
  rw [Assembler.constant] at later ⊢
  -- The pool has the value already, or it goes last and is new there.
  split at later
  · rename_i i found
    obtain ⟨inside, same, _⟩ := Array.findIdx?_eq_some_iff_getElem.mp found
    refine { kept with pooled := later, constants := ?_ }
    intro c member
    rcases List.mem_append.mp member with old | new
    · exact kept.constants c old
    · cases List.mem_singleton.mp new
      exact ⟨i, by simpa [inside] using same, rfl⟩
  · rename_i missing
    have fresh : value ∉ a.constants.toList := by
      intro member
      have apart := Array.findIdx?_eq_none_iff.mp missing value (by simpa using member)
      simp at apart
    refine { kept with pooled := later, constants := ?_, distinct := ?_ }
    · intro c member
      rcases List.mem_append.mp member with old | new
      · obtain ⟨i, found, same⟩ := kept.constants c old
        refine ⟨i, ?_, same⟩
        obtain ⟨inside, _⟩ := Array.getElem?_eq_some_iff.mp found
        rw [Array.getElem?_push, if_neg (by omega)]
        exact found
      · cases List.mem_singleton.mp new
        exact ⟨a.constants.size, Array.getElem?_push_size, rfl⟩
    · rw [Array.toList_push]
      exact List.nodup_append.mpr ⟨kept.distinct, List.nodup_singleton _, by
        intro v member w single same
        cases List.mem_singleton.mp single
        exact fresh (same ▸ member)⟩

theorem label (kept : Keeps reserved a o) :
    Keeps reserved a.label.2 { o with labels := o.labels ++ [a.label.1] } := by
  have inside : ∀ l ∈ o.labels, l.index < a.labels.size := by
    intro l member
    obtain ⟨bound, _⟩ := Array.getElem?_eq_some_iff.mp (kept.labels l member)
    exact bound
  refine { kept with references := ?_, labels := ?_, bindings := ?_ }
  · intro l member
    exact List.mem_append_left _ (kept.references l member)
  · intro l member
    rcases List.mem_append.mp member with old | new
    · have below := inside l old
      rw [Assembler.label, Array.getElem?_push, if_neg (by omega)]
      exact kept.labels l old
    · cases List.mem_singleton.mp new
      -- A label that was not handed out before is bound nowhere.
      have unbound : o.bindings.filter (·.1 = a.label.1) = [] := by
        rw [List.filter_eq_nil_iff]
        intro b member same
        have known := inside b.1 (kept.bindings b member).1
        rw [of_decide_eq_true same] at known
        exact Nat.lt_irrefl _ known
      simp only [Order.position?, unbound]
      exact Array.getElem?_push_size
  · intro b member
    exact ⟨List.mem_append_left _ (kept.bindings b member).1, (kept.bindings b member).2⟩

theorem bind (kept : Keeps reserved a o) (known : l ∈ o.labels) :
    Keeps reserved (a.bind l) { o with bindings := o.bindings ++ [(l, a.position)] } := by
  refine { kept with labels := ?_, bindings := ?_ }
  · intro other member
    have before := kept.labels other member
    by_cases same : other = l
    · subst same
      obtain ⟨inside, _⟩ := Array.getElem?_eq_some_iff.mp before
      simp [Assembler.bind, Order.position?, inside]
    · have apart : l.index ≠ other.index := fun equal => same (by cases l; cases other; simp_all)
      have skip : decide (l = other) = false := by simpa using Ne.symm same
      simp [Assembler.bind, Order.position?, Array.getElem?_setIfInBounds_ne apart, before, skip]
  · intro b member
    rcases List.mem_append.mp member with old | new
    · exact kept.bindings b old
    · cases List.mem_singleton.mp new
      exact ⟨known, Nat.le_refl _, .inl rfl⟩

theorem write (kept : Keeps reserved a o) {operation : Operation} {requests : List Request}
    (lawful : Draft.Lawful ⟨a.position, operation, requests⟩)
    (pooled : ∀ c ∈ requests.flatMap Request.constants, c ∈ o.constants)
    (known : ∀ l ∈ labelsOf (requests.flatMap Request.symbols), l ∈ o.labels) :
    Keeps reserved (a.write (Draft.symbols ⟨a.position, operation, requests⟩))
      (o.emit a.position operation requests) := by
  have symbols : (o.emit a.position operation requests).symbols =
      o.symbols ++ Draft.symbols ⟨a.position, operation, requests⟩ := by
    simp [Order.symbols, Order.emit]
  have size : a.code.size = o.symbols.length := by
    rw [← Array.length_toList, kept.code, spell, List.length_map]
  have position : (a.write (Draft.symbols ⟨a.position, operation, requests⟩)).position =
      a.position + (Draft.symbols ⟨a.position, operation, requests⟩).length := by
    rw [Assembler.position, ← Array.length_toList]
    simp [Assembler.write, Assembler.position, spell]
  -- A property of the drafts so far and of the new one is one of all drafts.
  have drafted : ∀ {P : Draft → Prop}, (∀ d ∈ o.drafts, P d) →
      P ⟨a.position, operation, requests⟩ →
      ∀ d ∈ (o.emit a.position operation requests).drafts, P d := by
    intro P before now d member
    rcases List.mem_append.mp member with old | new
    · exact before d old
    · cases List.mem_singleton.mp new
      exact now
  refine { kept with
    code := ?_, fixups := ?_, tiles := ?_, lawful := ?_, pooled := ?_, references := ?_,
    bindings := ?_ }
  · simp [symbols, spell_append, Assembler.write, kept.code]
  · simp [symbols, fixupsFrom_append, Assembler.write, kept.fixups, size]
  · intro place
    rw [position, Order.emit, List.map_append]
    exact (kept.tiles place).concat (i := Draft.resolve place ⟨a.position, operation, requests⟩)
  · exact drafted kept.lawful lawful
  · exact drafted kept.pooled pooled
  · intro l member
    rw [Order.references, symbols, labelsOf_append] at member
    rcases List.mem_append.mp member with old | new
    · exact kept.references l old
    · rw [Draft.symbols, labelsOf_append, labelsOf_inl] at new
      exact known l new
  · intro b member
    obtain ⟨known, below, boundary⟩ := kept.bindings b member
    refine ⟨known, by omega, .inr ?_⟩
    rcases boundary with here | ⟨d, old, same⟩
    · exact ⟨_, List.mem_append_right _ (List.mem_singleton.mpr rfl), here.symm⟩
    · exact ⟨d, List.mem_append_left _ old, same⟩

theorem constant_position (a : Assembler) (value : Value) :
    (a.constant value).2.position = a.position := by
  rw [Assembler.constant]
  split <;> rfl

theorem writeOperands (kept : Keeps reserved a o) {operation : Operation} {words : List Word}
    {operands : List Operand} (service : operation ≠ .opcode .int)
    (follows : o.Follows operation.layout words operands) :
    Keeps reserved (a.write (Draft.symbols ⟨a.position, operation, operands.map .operand⟩))
      (o.emit a.position operation (operands.map .operand)) := by
  apply kept.write
  · constructor
    · exact service
    · rw [← follows.kinds, List.map_map]
      rfl
  · intro c member
    rw [List.flatMap_map] at member
    exact follows.constants c member
  · intro l member
    rw [symbols_operands, labelsOf_inl] at member
    contradiction

theorem op (kept : Keeps reserved a o) {opcode : Opcode} {words : List Word}
    {operands : List Operand} (plain : opcode ≠ .int)
    (follows : o.Follows opcode.layout words operands) :
    Keeps reserved (a.op opcode words)
      (o.emit a.position (.opcode opcode) (operands.map .operand)) := by
  rw [← follows.words, op_eq_write a a.position]
  exact kept.writeOperands (by simpa using plain) follows

theorem interrupt (kept : Keeps reserved a o) {service : Interrupt} {words : List Word}
    {operands : List Operand} (follows : o.Follows service.layout words operands) :
    Keeps reserved (a.interrupt service words)
      (o.emit a.position (.interrupt service) (operands.map .operand)) := by
  rw [← follows.words, interrupt_eq_write a a.position]
  exact kept.writeOperands (by simp) follows

theorem assembled (made : Assembled reserved a o) : Keeps reserved a o := by
  -- Each step keeps the record; an instruction into a fresh register is the register and the
  -- operation.
  induction made with
  | start => exact start
  | register _ kept => exact kept.register
  | constant value _ kept => exact kept.constant value
  | label _ kept => exact kept.label
  | bind _ known kept => exact kept.bind known
  | op _ plain follows kept => exact kept.op plain follows
  | interrupt _ follows kept => exact kept.interrupt follows
  | @jump a _ l _ known kept =>
    rw [jump_eq_write a a.position]
    apply kept.write ⟨by simp, rfl⟩
    · simp [Request.constants]
    · simpa [labelsOf, Request.symbols] using known
  | @jumpIf a _ l r sense _ known kept =>
    rw [jumpIf_eq_write a a.position]
    apply kept.write
    · cases sense <;> exact ⟨by simp, rfl⟩
    · simp [Request.constants, Operand.constants]
    · simpa [labelsOf, Request.symbols, Operand.words] using known
  | @tryCatch a _ l r _ known kept =>
    rw [tryCatch_eq_write a a.position]
    apply kept.write ⟨by simp, rfl⟩
    · simp [Request.constants, Operand.constants]
    · simpa [labelsOf, Request.symbols, Operand.words] using known
  | @load a o value _ kept =>
    have follows : ((o.pool value (a.constant value).1).allot (a.load value).1).Follows
        Opcode.cload.layout [(a.constant value).1, (a.load value).1]
        [.constant (a.constant value).1 value, .register (a.load value).1] :=
      ⟨rfl, rfl, by simp [Operand.constants, Order.pool, Order.allot]⟩
    rw [← constant_position a value]
    exact (kept.constant value).register.op (by decide) follows
  | @loadGlobal a o index _ kept =>
    have follows : (o.allot a.register.1).Follows Opcode.gload.layout [index, a.register.1]
        [.global index, .register a.register.1] := ⟨rfl, rfl, by simp [Operand.constants]⟩
    exact kept.register.op (by decide) follows
  | binary _ plain follows kept => exact kept.register.op plain ⟨follows.1, follows.2, follows.3⟩
  | @call a o callee args _ kept =>
    have follows : (o.allot a.register.1).Follows Opcode.call.layout
        (callee :: UInt32.ofNat args.length :: (args ++ [a.register.1]))
        [.register callee, .registers args, .register a.register.1] :=
      ⟨rfl, by simp [Operand.words], by simp [Operand.constants]⟩
    exact kept.register.op (by decide) follows
  | @callKw a o callee args entries _ known kept =>
    have follows : (o.allot a.register.1).Follows Opcode.callKw.layout
        (callee :: UInt32.ofNat args.length :: (args ++
          UInt32.ofNat (entries.map fun e => (e.1.1, e.2)).length ::
          ((entries.map fun e => (e.1.1, e.2)).flatMap fun e => [e.1, e.2]) ++ [a.register.1]))
        [.register callee, .registers args, .keywords entries, .register a.register.1] := by
      constructor
      · rfl
      · simp [Operand.words, List.flatMap_map]
      · intro c member
        obtain ⟨e, used, rfl⟩ : ∃ e ∈ entries, (e.1.2, e.1.1) = c := by
          simpa [Operand.constants] using member
        exact known e used
    exact kept.register.op (by decide) follows
  | @ret a o r _ kept =>
    have follows : o.Follows Opcode.ret.layout [r] [.register r] :=
      ⟨rfl, rfl, by simp [Operand.constants]⟩
    exact kept.op (by decide) follows

end Keeps

section Resolution

variable {labels : Array (Option Nat)} {place : Label → Word} {xs : List Symbol} {l : Label}

/-- With every label bound, the holes are filled from the front, and what is filled stays. -/
theorem resolve_bound (done : List Word)
    (bound : ∀ l ∈ labelsOf xs, ∃ p, labels[l.index]?.join = some p ∧ place l = UInt32.ofNat p) :
    resolve labels (fixupsFrom done.length xs) (done ++ spell (fun _ => hole) xs).toArray =
      .ok (done ++ spell place xs).toArray := by
  induction xs generalizing done with
  | nil => rfl
  | cons x rest ih =>
    cases x with
    | inl w =>
      have later := ih (done ++ [w]) bound
      simpa [fixupsFrom, spell] using later
    | inr l =>
      obtain ⟨p, target, same⟩ := bound l (by simp [labelsOf])
      have later := ih (done ++ [place l]) fun other member =>
        bound other (by simp_all [labelsOf])
      simp only [fixupsFrom, resolve, target]
      simpa [spell, same] using later

/-- A label that is not bound is an error, and the error names such a label. -/
theorem resolve_unbound (code : Array Word) (ip : Nat) (used : l ∈ labelsOf xs)
    (unbound : labels[l.index]?.join = none) :
    ∃ l ∈ labelsOf xs, labels[l.index]?.join = none ∧
      resolve labels (fixupsFrom ip xs) code = .error (.malformed (.labelUnbound l.index)) := by
  induction xs generalizing ip code with
  | nil => contradiction
  | cons x rest ih =>
    cases x with
    | inl w => exact ih code (ip + 1) used
    | inr other =>
      have first : labelsOf (.inr other :: rest) = other :: labelsOf rest := rfl
      rw [first] at used ⊢
      cases target : labels[other.index]?.join with
      | none =>
        refine ⟨other, List.mem_cons_self .., target, ?_⟩
        simp only [fixupsFrom, resolve, target]
      | some p =>
        rcases List.mem_cons.mp used with same | later
        · rw [← same, unbound] at target
          contradiction
        · obtain ⟨culprit, member, missing, error⟩ :=
            ih (code.setIfInBounds ip (UInt32.ofNat p)) (ip + 1) later
          refine ⟨culprit, List.mem_cons_of_mem _ member, missing, ?_⟩
          simp only [fixupsFrom, resolve, target, error]

end Resolution

namespace Order

variable {o : Order} {l : Label} {p : Nat}

theorem position?_eq_none : o.position? l = none ↔ ∀ p, (l, p) ∉ o.bindings := by
  simp only [position?, Option.map_eq_none_iff, List.getLast?_eq_none_iff,
    List.filter_eq_nil_iff, decide_eq_true_eq]
  constructor
  · intro never p member
    exact never (l, p) member rfl
  · rintro never ⟨l, p⟩ member rfl
    exact never p member

theorem position?_mem (last : o.position? l = some p) : (l, p) ∈ o.bindings := by
  obtain ⟨⟨other, _⟩, found, rfl⟩ := Option.map_eq_some_iff.mp last
  obtain ⟨member, same⟩ := List.mem_filter.mp (List.mem_of_getLast? found)
  cases of_decide_eq_true same
  exact member

end Order

/-- A codeblock is what was asked for. -/
structure Fulfils (reserved : Nat) (o : Order) (block : Codeblock) : Prop where
  /-- The instructions are those asked for, at the positions the assembler had. -/
  instructions : block.instructions = .ok (o.drafts.map (Draft.resolve o.place))
  /-- A label stands for the position it was bound to last, where no instruction is cut. -/
  targets : ∀ l ∈ o.references, ∃ p, o.position? l = some p ∧ (o.place l).toNat = p ∧
    (p = block.code.size ∨ ∃ d ∈ o.drafts, d.ip = p)
  constants : ∀ c ∈ o.constants, block.constants[c.2.toNat]? = some c.1
  pool : block.constants.toList.Nodup
  registers : o.registers.Nodup
  range : ∀ r ∈ o.registers, reserved ≤ r.toNat ∧ r.toNat < block.registers

namespace Keeps

variable {reserved : Nat} {a : Assembler} {o : Order} {block : Codeblock}

theorem symbols_resolve (place : Label → Word) (d : Draft) :
    (d.resolve place).words = spell place d.symbols := by
  have requests : (d.requests.map (·.resolve place)).flatMap Operand.words =
      spell place (d.requests.flatMap Request.symbols) := by
    induction d.requests with
    | nil => rfl
    | cons r rest ih =>
      rw [List.map_cons, List.flatMap_cons, List.flatMap_cons, spell_append, ih]
      cases r with
      | operand x => rw [Request.symbols, spell_inl]; rfl
      | target l => rfl
  rw [Draft.symbols, spell_append, spell_inl, ← requests]
  rfl

theorem regular {d : Draft} (lawful : d.Lawful) (place : Label → Word) :
    (d.resolve place).Regular where
  service := lawful.service
  layout := by
    rw [Draft.resolve, ← lawful.layout, List.map_map]
    apply List.map_congr_left
    intro r _
    cases r <;> rfl
  next := by
    rw [symbols_resolve, spell, List.length_map]
    rfl

theorem finish_unbound (kept : Keeps reserved a o) {l : Label} (used : l ∈ o.references)
    (never : o.position? l = none) :
    ∃ l ∈ o.references, o.position? l = none ∧
      a.finish = .error (.malformed (.labelUnbound l.index)) := by
  have table : ∀ l ∈ o.references, a.labels[l.index]?.join = o.position? l := by
    intro l member
    rw [kept.labels l (kept.references l member), Option.join_some]
  obtain ⟨culprit, member, unbound, error⟩ :=
    resolve_unbound a.code 0 used ((table l used).trans never)
  refine ⟨culprit, member, (table culprit member).symm.trans unbound, ?_⟩
  rw [finish, kept.fixups, error]
  rfl

theorem finish_bound (kept : Keeps reserved a o)
    (bound : ∀ l ∈ o.references, o.position? l ≠ none) :
    a.finish = .ok ⟨a.registers, a.constants, (spell o.place o.symbols).toArray⟩ := by
  have placed : ∀ l ∈ o.references,
      ∃ p, a.labels[l.index]?.join = some p ∧ o.place l = UInt32.ofNat p := by
    intro l member
    obtain ⟨p, last⟩ := Option.ne_none_iff_exists'.mp (bound l member)
    refine ⟨p, ?_, by rw [Order.place, last]; rfl⟩
    rw [kept.labels l (kept.references l member), Option.join_some, last]
  have resolved := resolve_bound [] placed
  have code : a.code = (spell (fun _ => hole) o.symbols).toArray := by
    rw [← kept.code]
  simp only [List.nil_append, List.length_nil, ← code] at resolved
  rw [finish, kept.fixups, resolved]
  rfl

theorem constants_resolve (place : Label → Word) (d : Draft) :
    (d.resolve place).operands.flatMap Operand.constants = d.constants := by
  rw [Draft.resolve, List.flatMap_map, Draft.constants]
  apply List.flatMap_congr
  intro r _
  cases r <;> rfl

theorem instructions_eq (kept : Keeps reserved a o) (place : Label → Word)
    (code : block.code.toList = spell place o.symbols) (bound : block.code.size < 2 ^ 32)
    (pooled : block.Pooled o.constants) :
    block.instructions = .ok (o.drafts.map (Draft.resolve place)) := by
  have words : (o.drafts.map (Draft.resolve place)).flatMap Instruction.words =
      spell place o.symbols := by
    rw [List.flatMap_map, Order.symbols, spell, List.map_flatMap]
    apply List.flatMap_congr
    intro d _
    exact symbols_resolve place d
  have size : block.code.size = a.position := by
    rw [position, ← Array.length_toList, ← Array.length_toList, code, kept.code, spell, spell,
      List.length_map, List.length_map]
  apply Codeblock.instructionsFrom_spelled
  · intro i member
    obtain ⟨d, drafted, rfl⟩ := List.mem_map.mp member
    exact regular (kept.lawful d drafted) place
  · rw [size]
    exact kept.tiles place
  · rw [words, ← code]
    exact List.prefix_rfl
  · intro i member c used
    obtain ⟨d, drafted, rfl⟩ := List.mem_map.mp member
    apply pooled c
    apply kept.pooled d drafted
    rwa [constants_resolve] at used
  · omega
  · omega

theorem fulfils (kept : Keeps reserved a o) (code : a.code.size < 2 ^ 32)
    (pool : a.constants.size < 2 ^ 32) (registers : a.registers < 2 ^ 32)
    (bound : ∀ l ∈ o.references, o.position? l ≠ none) :
    Fulfils reserved o ⟨a.registers, a.constants, (spell o.place o.symbols).toArray⟩ := by
  have size : (spell o.place o.symbols).length = a.code.size := by
    rw [← Array.length_toList, kept.code, spell, spell, List.length_map, List.length_map]
  -- Positions, indices and registers stay below `2 ^ 32`, so words tell them apart.
  have pooled : ∀ c ∈ o.constants, a.constants[c.2.toNat]? = some c.1 := by
    intro c member
    obtain ⟨i, found, same⟩ := kept.constants c member
    obtain ⟨inside, _⟩ := Array.getElem?_eq_some_iff.mp found
    rw [same, Codeblock.toNat_ofNat (by omega), found]
  have count := kept.count
  constructor
  · exact kept.instructions_eq o.place rfl (by simpa [size] using code) pooled
  · intro l member
    obtain ⟨p, last⟩ := Option.ne_none_iff_exists'.mp (bound l member)
    obtain ⟨_, below, boundary⟩ := kept.bindings _ (Order.position?_mem last)
    have inside : p < 2 ^ 32 := Nat.lt_of_le_of_lt below code
    have placed : o.place l = UInt32.ofNat p := by
      rw [Order.place, last]
      rfl
    refine ⟨p, last, by rw [placed, Codeblock.toNat_ofNat inside], ?_⟩
    rcases boundary with final | before
    · left
      rw [List.size_toArray, size]
      exact final
    · exact .inr before
  · exact pooled
  · exact kept.distinct
  · rw [kept.registers]
    apply List.Nodup.map_on
    · intro m first n second same
      rw [List.mem_range'_1] at first second
      have equal := congrArg UInt32.toNat same
      rwa [Codeblock.toNat_ofNat (by omega), Codeblock.toNat_ofNat (by omega)] at equal
    · exact List.nodup_range'
  · intro r member
    rw [kept.registers] at member
    obtain ⟨n, inside, rfl⟩ := List.mem_map.mp member
    rw [List.mem_range'_1] at inside
    rw [Codeblock.toNat_ofNat (by omega)]
    constructor
    · exact inside.1
    · show n < a.registers
      omega

end Keeps

/-- An assembler produces what was asked for, whatever the calls were and in whichever order, and it
fails only for a label that is used and bound nowhere. -/
theorem assembled_fulfils {reserved : Nat} {a : Assembler} {o : Order}
    (assembled : Assembled reserved a o) (code : a.code.size < 2 ^ 32)
    (pool : a.constants.size < 2 ^ 32) (registers : a.registers < 2 ^ 32) :
    ((∃ fault, a.finish = .error fault) ↔ ∃ l ∈ o.references, ∀ p, (l, p) ∉ o.bindings) ∧
      (∀ fault, a.finish = .error fault → ∃ l ∈ o.references, (∀ p, (l, p) ∉ o.bindings) ∧
        fault = .malformed (.labelUnbound l.index)) ∧
      ∀ block, a.finish = .ok block → Fulfils reserved o block := by
  have kept := Keeps.assembled assembled
  -- Either a label that is used has no position, or every one has and the words can be filled in.
  by_cases unbound : ∃ l ∈ o.references, o.position? l = none
  · obtain ⟨l, used, never⟩ := unbound
    obtain ⟨culprit, member, missing, error⟩ := kept.finish_unbound used never
    rw [Order.position?_eq_none] at missing
    refine ⟨⟨fun _ => ⟨culprit, member, missing⟩, fun _ => ⟨_, error⟩⟩, ?_, ?_⟩
    · intro fault failed
      rw [error] at failed
      cases failed
      exact ⟨culprit, member, missing, rfl⟩
    · intro block done
      rw [error] at done
      contradiction
  · have bound : ∀ l ∈ o.references, o.position? l ≠ none := fun l used never =>
      unbound ⟨l, used, never⟩
    have finished := kept.finish_bound bound
    have succeeds : ∀ fault, a.finish ≠ .error fault := by
      intro fault failed
      rw [finished] at failed
      contradiction
    refine ⟨⟨?_, ?_⟩, ?_, ?_⟩
    · rintro ⟨fault, failed⟩
      exact absurd failed (succeeds fault)
    · rintro ⟨l, used, never⟩
      exact absurd (Order.position?_eq_none.mpr never) (bound l used)
    · intro fault failed
      exact absurd failed (succeeds fault)
    · intro block done
      rw [finished] at done
      cases done
      exact kept.fulfils code pool registers bound

/-- A label that is used before and after it is bound, and bound again in the end. -/
theorem loop_assembled : ∃ a o, Assembled 1 a o ∧ o.bindings = [(⟨0⟩, 6), (⟨0⟩, 11)] ∧
    o.references = [⟨0⟩, ⟨0⟩] ∧ a.code.size = 21 ∧ a.constants.size = 1 ∧ a.registers = 4 := by
  have early := Assembled.label (.load (.veracity true) (.start : Assembled 1 _ _))
  have forward := Assembled.jumpIf (l := ⟨0⟩) 1 true early (by decide +kernel)
  have bound := Assembled.bind (l := ⟨0⟩) forward (by decide +kernel)
  have shared := Assembled.load (.veracity true) bound
  have backward := Assembled.jump (l := ⟨0⟩) shared (by decide +kernel)
  have rebound := Assembled.bind (l := ⟨0⟩) backward (by decide +kernel)
  have named := Assembled.callKw 0 [1] [((0, .veracity true), 2)] rebound (by decide +kernel)
  have made := Assembled.ret 3 named
  refine ⟨_, _, made, ?_⟩
  decide +kernel

theorem loop_fulfils : ∃ a o block, Assembled 1 a o ∧ o.bindings = [(⟨0⟩, 6), (⟨0⟩, 11)] ∧
    o.references = [⟨0⟩, ⟨0⟩] ∧ a.finish = .ok block ∧ Fulfils 1 o block := by
  obtain ⟨a, o, made, bindings, references, code, pool, registers⟩ := loop_assembled
  obtain ⟨failing, _, fulfilled⟩ :=
    assembled_fulfils made (by omega) (by omega) (by omega)
  cases finished : a.finish with
  | error fault =>
    obtain ⟨l, used, never⟩ := failing.mp ⟨fault, finished⟩
    rw [references] at used
    obtain rfl : l = ⟨0⟩ := by simpa using used
    exact absurd (by simp [bindings]) (never 6)
  | ok block => exact ⟨a, o, block, made, bindings, references, finished, fulfilled _ finished⟩

end Assembler

end JourneyMachine
