import JourneyMachine.Proofs.Closure.Services

namespace JourneyMachine

open Machine (Within Active)

namespace Form

variable {f : Form} {i : Nat} {v guard : Value}

theorem links_setEssenceGuard (member : v ∈ (f.setEssenceGuard i guard).links) :
    v ∈ f.links ∨ v = guard := by
  refine links_essences (fun e there w part => ?_) member
  rcases mem_modify there with old | ⟨old, of, rfl⟩
  · exact .inl (essence_links old w part)
  · rcases List.mem_cons.mp part with rfl | changed
    · exact .inl (essence_links of _ (List.mem_cons_self ..))
    · exact .inr (by simpa using changed)

theorem links_setMatterGuard (member : v ∈ (f.setMatterGuard i guard).links) :
    v ∈ f.links ∨ v = guard := by
  simp only [links, setMatterGuard, List.mem_append] at member ⊢
  rcases member with ((((rest | changed) | rest) | rest) | rest) | rest
  · tauto
  · obtain ⟨m, there, part⟩ := List.mem_flatMap.mp changed
    rcases mem_modify there with old | ⟨old, _, rfl⟩
    · exact .inl (.inl (.inl (.inl (.inl (.inr (List.mem_flatMap.mpr ⟨m, old, part⟩))))))
    · exact .inr (by simpa using part)
  all_goals tauto

end Form

namespace Machine

variable {strict : Prop} {m₀ m : Machine} {h : Handle} {p : Pattern}

theorem Active.handlers (active : Active strict m₀ h p m) {handlers : HandlerStack}
    (same : handlers.exception = m.handlers.exception) :
    Active strict m₀ h p { m with handlers } :=
  active.within (.same active.closed rfl (by simp only [links, same]) rfl rfl rfl rfl)

theorem Active.refersGlobal (active : Active strict m₀ h p m) {i : Nat} {v : Value}
    (found : m.program.global? i = some v) : m.heap.Refers v := by
  obtain ⟨g, there, rfl⟩ := Option.map_eq_some_iff.mp found
  refine active.closed.links g.2 ?_
  simp only [links, List.mem_append]
  exact .inl (.inl (.inl (.inl (.inl (List.mem_map.mpr
    ⟨g, Array.mem_toList_iff.mpr (Array.mem_of_getElem? there), rfl⟩)))))

theorem Closed.setGlobal (closed : m.Closed) {v : Value} (i : Nat) (refers : m.heap.Refers v) :
    ({ m with program := m.program.setGlobal i v } : Machine).Closed := by
  refine closed.of_links rfl (fun w member => ?_) fun _ => .inl
  simp only [Machine.links, Program.setGlobal, Array.toList_modify, List.mem_append] at member ⊢
  rcases member with ((((changed | rest) | rest) | rest) | rest) | rest
  · obtain ⟨g, there, rfl⟩ := List.mem_map.mp changed
    rcases mem_modify there with old | ⟨old, _, rfl⟩
    · exact .inl (.inl (.inl (.inl (.inl (.inl (List.mem_map.mpr ⟨g, old, rfl⟩))))))
    · exact .inr refers
  all_goals tauto

theorem advance_suspended : m.advance.suspended = m.suspended := by
  unfold suspended advance
  cases m.frames <;> rfl

/-- An instruction that drops no guard stores one that leaves those of a held form. -/
theorem guards_kept {opcode : Opcode} {set : Form → Nat → Value → Form} (calm : ¬ m.DropsGuard)
    (next : (m.word? 0).bind Opcode.ofWord? = some opcode)
    (stored : ∀ f i g, storedGuard? opcode f i g = some (set f i g)) (k : Handle) (f : Form)
    (guard : Value) (index : Word) (target : m.advance.operand? 0 = some (.form k))
    (new : m.advance.operand? 1 = some guard) (field : m.advance.word? 2 = some index)
    (held : Heap.HeldForm m.suspended m.heap k) (used : m.heap.get? k = some (.form f)) (g : Value)
    (member : g ∈ f.guards) (inHeap : g.handle? ≠ none) : g ∈ (set f index.toNat guard).guards := by
  rw [advance_operand?] at target new
  rw [advance_word?] at field
  by_contra lost
  exact calm ⟨opcode, k, f, guard, index, _, g, next, target, new, field, held, used,
    stored f index.toNat guard, member, inHeap, lost⟩

/-- A guard is stored in a form; one that something suspended holds keeps its patterns. -/
theorem Active.storeGuard (active : Active strict m₀ h p m) {k : Handle} {f after : Form}
    (set : Form → Form) (used : m.heap.get? k = some (.form f)) (same : set f = after)
    (like : f.Alike after) (holds : ∀ v ∈ after.links, m.heap.Refers v)
    (kept : strict → Heap.HeldForm m₀.held m.heap k →
      ∀ g ∈ f.guards, g.handle? ≠ none → g ∈ after.guards) :
    Active strict m₀ h p { m with
      heap := m.heap.modify k fun
        | .form form => .form (set form)
        | object => object } := by
  subst same
  have alike : Object.Alike (.form f) (.form (set f)) := .form like
  have closed := active.closed.modify (f := fun
    | .form form => .form (set form)
    | object => object) used alike holds
  refine ⟨closed, active.fixed, active.frame, active.pinned, active.evolves.trans (.modify ?_ ?_),
    active.appends.trans (.modify used fun _ other => nomatch other) fun _ => active.held_sub⟩
  · intro o there
    cases Option.some.inj (used.symm.trans there)
    exact alike
  · intro assumed held form after there changed
    cases Option.some.inj (used.symm.trans there)
    cases changed
    exact kept assumed held

theorem Precedes.storeGuard {k : Handle} {f : Form} {set : Form → Form}
    (used : m.heap.get? k = some (.form f)) (like : f.Alike (set f)) :
    m.Precedes { m with
      heap := m.heap.modify k fun
        | .form form => .form (set form)
        | object => object } := by
  refine .modify (fun o there => ?_) fun _ o there i same => ?_
  · cases Option.some.inj (used.symm.trans there)
    exact .form like
  · cases Option.some.inj (used.symm.trans there)
    cases same

end Machine

namespace Run

variable {strict : Prop} {env : Env} {m m₀ : Machine} {h : Handle} {p : Pattern}

def Returns (flow : Flow) (m : Machine) : Prop := ∀ v, flow = .done v → m.heap.Refers v

theorem returns_next : Returns .next m := fun _ same => by cases same

theorem meets_next : Meets (.active strict m₀ h p) env (return .next) m Returns :=
  .pure fun _ => returns_next

section Simple

theorem meets_unary {f : Value → Run Value}
    (each : ∀ v m', Active strict m₀ h p m' → v ∈ m'.top →
      Meets (.within strict m') env (f v) m' fun r m' => m'.heap.Refers r) :
    Meets (.active strict m₀ h p) env (unary f) m Returns :=
  meets_operand fun v m' active member =>
    (each v m' active member).lift.bind fun _ _ _ refers =>
      (meets_store refers).bind fun _ _ _ _ => meets_next

theorem meets_binary {f : Value → Value → Run Value}
    (each : ∀ a b m', Active strict m₀ h p m' → a ∈ m'.top → b ∈ m'.top →
      Meets (.within strict m') env (f a b) m' fun r m' => m'.heap.Refers r) :
    Meets (.active strict m₀ h p) env (binary f) m Returns :=
  meets_operands fun a b m' active first second =>
    (each a b m' active first second).lift.bind fun _ _ _ refers =>
      (meets_store refers).bind fun _ _ _ _ => meets_next

/-- A pattern helper of two registers. -/
theorem meets_helper {helper : Value → Value → Other}
    (values : ∀ a b, ∀ v ∈ (helper a b).values, v = a ∨ v = b) :
    Meets (.active strict m₀ h p) env
      (binary fun a b => return .other (← allocate (.other (helper a b)))) m Returns :=
  meets_binary fun a b m' active first second =>
    (meets_allocate (o := .other (helper a b)) (by simp [Object.genus]) fun _ v member => by
      rcases values a b v member with rfl | rfl
      · exact top_refers active first
      · exact top_refers active second).bind fun _ _ _ placed =>
        .pure fun _ => (Heap.refers_other).mpr placed.holds

theorem meets_nextName :
    Meets (.active strict m₀ h p) env nextName m fun _ m' =>
      m'.heap = m.heap ∧ m'.top = m.top := by
  refine (meets_nextConstant).bind ?_
  rintro v m' _ ⟨rfl, refers⟩
  refine (meets_expectHandle (m := m.advance) .text refers).bind ?_
  rintro t m₁ _ ⟨rfl, holds⟩
  refine (meets_text fun _ => holds).weaken ?_
  rintro _ m₂ _ ⟨rfl, _⟩
  exact ⟨rfl, Machine.advance_top⟩

theorem meets_nextKeywords (count : Nat) :
    Meets (.active strict m₀ h p) env (nextKeywords count) m fun keywords m' =>
      m'.heap = m.heap ∧ m'.top = m.top ∧ ∀ k ∈ keywords, k.2 ∈ m.top := by
  induction count generalizing m with
  | zero => exact .pure fun _ => ⟨rfl, rfl, fun _ member => absurd member List.not_mem_nil⟩
  | succ count ih =>
    refine (meets_nextConstant).bind ?_
    rintro name m' _ ⟨rfl, refers⟩
    refine (meets_nextValue).bind ?_
    rintro v m' _ ⟨rfl, read⟩
    refine (meets_expectHandle (m := m.advance.advance) .text refers).bind ?_
    rintro t m₁ _ ⟨rfl, holds⟩
    refine (meets_text fun _ => holds).bind ?_
    rintro content m₂ _ ⟨rfl, _⟩
    refine ih.bind fun keywords m₃ _ post => .pure fun _ => ?_
    obtain ⟨heap, top, members⟩ := post
    have value := Machine.operand?_mem read
    simp only [Machine.advance_top] at top members value
    exact ⟨heap, top, List.forall_mem_cons.mpr ⟨value, members⟩⟩

theorem meets_installHandler :
    Meets (.active strict m₀ h p) env installHandler m Returns := by
  refine (meets_nextIndex).bind fun resume m₁ _ _ => ?_
  refine (meets_nextIndex).bind fun register m₂ _ _ => ?_
  refine .get (fun _ => rfl) ?_
  split
  · rename_i handlers pushed
    have same : handlers.exception = m₂.handlers.exception := by
      unfold HandlerStack.push? at pushed
      split at pushed
      · contradiction
      · rw [← Option.some.inj pushed]
    exact Meets.bind (P := fun _ _ => True) (.changes (fun _ => rfl) (fun active =>
      ⟨active.handlers same, trivial⟩) fun _ => .same rfl rfl) fun _ _ _ _ => meets_next
  · exact meets_complain _

theorem meets_removeHandler :
    Meets (.active strict m₀ h p) env removeHandler m Returns := by
  refine .get (fun _ => rfl) ?_
  split
  · rename_i record handlers popped
    have same : handlers.exception = m.handlers.exception := by
      unfold HandlerStack.pop? at popped
      split at popped
      · contradiction
      · cases popped
        rfl
    exact Meets.bind (P := fun _ _ => True) (.changes (fun _ => rfl) (fun active =>
      ⟨active.handlers same, trivial⟩) fun _ => .same rfl rfl) fun _ _ _ _ => meets_next
  · exact .fail fun _ _ => by simp

/-- The instructions that store guards, from their operands on. -/
theorem meets_storeGuard {fieldCount : Form → Nat} {set : Form → Nat → Value → Form}
    (alike : ∀ (f : Form) i g, f.Alike (set f i g))
    (links : ∀ {f i g v}, v ∈ (set f i g).links → v ∈ f.links ∨ v = g)
    (kept : strict → ∀ k f guard index, m.operand? 0 = some (.form k) →
      m.operand? 1 = some guard → m.word? 2 = some index → Heap.HeldForm m₀.held m.heap k →
      m.heap.get? k = some (.form f) →
      ∀ g ∈ f.guards, g.handle? ≠ none → g ∈ (set f index.toNat guard).guards) :
    Meets (.active strict m₀ h p) env (storeGuard fieldCount set) m Returns := by
  refine (meets_nextValue).bind ?_
  rintro target m' _ ⟨rfl, readTarget⟩
  refine (meets_nextValue).bind ?_
  rintro guard m' _ ⟨rfl, readGuard⟩
  refine (meets_nextIndex).bind ?_
  rintro _ m' active ⟨rfl, index, readIndex, rfl⟩
  have topTarget : target ∈ m.advance.advance.advance.top := by
    simpa using Machine.operand?_mem readTarget
  have topGuard : guard ∈ m.advance.advance.advance.top := by
    simpa using Machine.operand?_mem readGuard
  refine (expectHandle_found .form (top_refers active topTarget)).bind ?_
  rintro k m₁ _ ⟨rfl, holds, found, genus⟩
  obtain rfl : target = .form k := by
    cases target <;> simp_all [Value.genus, Value.handle?]
  refine (meets_form fun _ => holds).bind ?_
  rintro f m₂ _ ⟨rfl, used⟩
  split
  · refine Meets.bind (P := fun _ _ => True) ((meets_form fun _ => holds).discard.bind ?_)
      fun _ _ _ _ => meets_next
    rintro _ m₃ _ ⟨_, rfl, _⟩
    refine .changes (fun _ => rfl) (fun active => ⟨active.storeGuard (set · index.toNat guard)
      used rfl (alike ..) (fun v member => ?_) fun assumed held g member inHeap => ?_, trivial⟩)
        fun _ => .storeGuard used (alike ..)
    · rcases links member with before | rfl
      · exact active.closed.heap k _ used v before
      · exact top_refers active topGuard
    · rw [Machine.advance_operand?] at readGuard
      rw [Machine.advance_word?, Machine.advance_word?] at readIndex
      exact kept assumed k f guard index readTarget readGuard readIndex held used g member inHeap
  · exact .fail fun _ _ => by simp

end Simple

section Calls

variable (calls : env.Calls strict)
include calls

theorem meets_comparison (test : Int64 → Bool) :
    Meets (.active strict m₀ h p) env (comparison test) m Returns :=
  meets_binary fun _ _ _ _ first second =>
    (meets_cmp calls (Machine.top_sub_held first) (Machine.top_sub_held second)).bind
      fun _ _ _ _ => .pure fun _ => Heap.refers_veracity _

theorem meets_branch (sense : Bool) :
    Meets (.active strict m₀ h p) env (branch sense) m Returns := by
  refine meets_operand fun condition m₁ _ member => ?_
  refine (meets_nextIndex).bind ?_
  rintro target m₂ active ⟨rfl, _⟩
  refine (meets_toVeracity calls (top_refers active (by rwa [Machine.advance_top]))).bind
    fun truth m₃ _ _ => ?_
  split
  · exact (meets_jump target).bind fun _ _ _ _ => meets_next
  · exact meets_next

/-- A call of a register with arguments that were read from registers. -/
theorem meets_callWith {callee : Value} {args : Arguments}
    (members : ∀ v ∈ callee :: args.values, v ∈ m.top) :
    Meets (.active strict m₀ h p) env (do
      let env ← read
      store (← env.call callee args)
      return .next) m Returns := by
  refine .congr (d := do
    store (← (fun _ => env.call callee args : Run Value))
    return .next) (fun _ => rfl) (.intro fun active => ?_)
  exact (calls.meets _ fun v member => top_refers active (members v member)).lift.bind
    fun _ _ _ post => (meets_store post.1).bind fun _ _ _ _ => meets_next

theorem meets_callInstruction (hasKeywords : Bool) :
    Meets (.active strict m₀ h p) env (callInstruction hasKeywords) m Returns := by
  refine meets_operand fun callee m₁ _ member => ?_
  refine (meets_countedValues).bind ?_
  rintro positional m₂ _ ⟨_, top₂, positionals⟩
  have all : ∀ keywords : List (String × Value), (∀ k ∈ keywords, k.2 ∈ m₂.top) →
      ∀ v ∈ callee :: Arguments.values { positional, keywords }, v ∈ m₂.top := by
    intro keywords keyed v there
    rcases List.mem_cons.mp there with rfl | arg
    · exact top₂ ▸ member
    · rcases List.mem_append.mp arg with value | keyword
      · exact top₂ ▸ positionals v value
      · obtain ⟨k, of, rfl⟩ := List.mem_map.mp keyword
        exact keyed k of
  cases hasKeywords with
  | true =>
    refine (meets_nextIndex).bind ?_
    rintro count m' _ ⟨rfl, _⟩
    refine (meets_nextKeywords count).bind ?_
    rintro keywords m₃ _ ⟨_, top₃, keyed⟩
    rw [Machine.advance_top] at top₃ keyed
    exact meets_callWith calls (top₃ ▸ all keywords keyed)
  | false =>
    exact meets_callWith calls (all [] fun _ member => absurd member List.not_mem_nil)

theorem meets_equality (test : Bool → Bool) :
    Meets (.active strict m₀ h p) env (binary fun a b => return .veracity (test (← eql a b))) m
      Returns :=
  meets_binary fun _ _ _ active first second =>
    (meets_eql calls (top_refers active first) (top_refers active second)).bind
      fun _ _ _ _ => .pure fun _ => Heap.refers_veracity _

theorem meets_execute (opcode : Opcode) (calm : strict → ¬ m.DropsGuard)
    (next : (m.word? 0).bind Opcode.ofWord? = some opcode) :
    Meets (.active strict m₀ h p) env (execute opcode) m.advance Returns := by
  have arithmetic : ∀ {f : Value → Value → Run Value},
      (∀ {a b : Value} {m' : Machine}, a ∈ m'.held → b ∈ m'.held →
        Meets (.within strict m') env (f a b) m' fun v m' => m'.heap.Refers v) →
      Meets (.active strict m₀ h p) env (binary f) m.advance Returns := fun each =>
    meets_binary fun _ _ _ _ first second =>
      each (Machine.top_sub_held first) (Machine.top_sub_held second)
  cases opcode with
  | noop => exact meets_next
  | mov => exact meets_unary fun _ _ active member => .pure fun _ => top_refers active member
  | int => exact (meets_interrupt calls).bind fun _ _ _ _ => meets_next
  | jmp =>
    exact (meets_nextIndex).bind fun target _ _ _ =>
      (meets_jump target).bind fun _ _ _ _ => meets_next
  | jmpTrue => exact meets_branch calls true
  | jmpFalse => exact meets_branch calls false
  | call => exact meets_callInstruction calls false
  | callKw => exact meets_callInstruction calls true
  | ret =>
    exact meets_operand fun v m' active member =>
      .pure fun _ _ same => by
        cases same
        exact top_refers active member
  | tryCatch => exact meets_installHandler
  | throw =>
    exact meets_operand fun v m' active member => meets_raise fun _ => top_refers active member
  | popTryCatch => exact meets_removeHandler
  | not =>
    exact meets_unary fun _ _ _ member => meets_not calls (Machine.top_sub_held member)
  | neg =>
    exact meets_unary fun _ _ _ member => meets_neg calls (Machine.top_sub_held member)
  | eql => exact meets_equality calls id
  | neq => exact meets_equality calls Bool.not
  | lth | gth | leq | geq => exact meets_comparison calls _
  | cmp =>
    exact meets_binary fun _ _ _ _ first second =>
      (meets_cmp calls (Machine.top_sub_held first) (Machine.top_sub_held second)).bind
        fun _ _ _ _ => .pure fun _ => Heap.refers_numeral _
  | add => exact arithmetic (meets_add calls)
  | sub => exact arithmetic (meets_sub calls)
  | mul => exact arithmetic (meets_mul calls)
  | div => exact arithmetic (meets_div calls)
  | mod => exact arithmetic (meets_rem calls)
  | pow => exact arithmetic (meets_pow calls)
  | index =>
    exact meets_binary fun _ _ _ active first second =>
      meets_index calls (Machine.top_sub_held first) (top_refers active second)
  | indexAssign =>
    exact meets_operands₃ fun a b c m' active first second third =>
      (Meets.lift (meets_indexAssign calls (Machine.top_sub_held first) (top_refers active second)
        (Machine.top_sub_held third))).bind fun _ _ _ _ => meets_next
  | fits =>
    exact meets_binary fun _ _ _ _ first second =>
      (meets_fits calls (fun _ => .root (Machine.top_sub_held first))
        (Machine.top_sub_held second)).bind fun _ _ _ _ => .pure fun _ => Heap.refers_veracity _
  | patAnd => exact meets_helper fun a b v member => by simpa [Other.values] using member
  | patOr => exact meets_helper fun a b v member => by simpa [Other.values] using member
  | patNot =>
    refine meets_unary fun a m' active member => ?_
    refine (meets_allocate (by simp [Object.genus]) fun _ v inside => ?_).bind
      fun _ _ _ placed => .pure fun _ => (Heap.refers_other).mpr placed.holds
    rw [List.mem_singleton.mp inside]
    exact top_refers active member
  | cload =>
    refine (meets_nextConstant).bind ?_
    rintro v m' _ ⟨rfl, refers⟩
    exact (meets_store (m := m.advance.advance) refers).bind fun _ _ _ _ => meets_next
  | gload =>
    refine (meets_nextIndex).bind fun i m' active _ => .get (fun _ => rfl) ?_
    split
    · rename_i v found
      exact (meets_store (active.refersGlobal found)).bind fun _ _ _ _ => meets_next
    · exact .fail fun _ _ => by simp
  | gstore =>
    refine meets_operand fun v m₁ _ member => ?_
    refine (meets_nextIndex).bind ?_
    rintro i m₂ _ ⟨rfl, _⟩
    refine .get (fun _ => rfl) ?_
    split
    · refine Meets.bind (P := fun _ _ => True) (.changes (fun _ => rfl) (fun active =>
        ⟨?_, trivial⟩) fun _ => .same rfl rfl) fun _ _ _ _ => meets_next
      have refers := top_refers active (by rwa [Machine.advance_top])
      exact active.within ⟨active.closed.setGlobal i refers, rfl, rfl, rfl, .refl, .same rfl rfl⟩
    · exact .fail fun _ _ => by simp
  | iload =>
    refine meets_operand fun v m₁ _ member => ?_
    refine (meets_nextName).bind fun name m₂ _ post => ?_
    have held : v ∈ m₂.held := Machine.top_sub_held (by rw [post.2]; exact member)
    refine Meets.bind (P := fun found m₃ => m₃.heap.Refers v ∧
      ∀ r, found = some r → m₃.heap.Refers r) (.lift ((meets_attribute? calls name held).weaken
        fun _ _ within post => ⟨within.refers held, post⟩)) fun found m₃ _ post => ?_
    cases found with
    | some r => exact (meets_store (post.2 r rfl)).bind fun _ _ _ _ => meets_next
    | none => exact meets_complain_type fun _ => post.1
  | istore =>
    refine meets_operands fun v new m₁ _ first second => ?_
    refine (meets_nextName).bind fun name m₂ _ post => ?_
    have held : v ∈ m₂.held := Machine.top_sub_held (by rw [post.2]; exact first)
    have heldNew : new ∈ m₂.held := Machine.top_sub_held (by rw [post.2]; exact second)
    refine Meets.bind (P := fun _ m₃ => m₃.heap.Refers v)
      (.lift ((meets_setAttribute calls name held heldNew).weaken
        fun _ _ within _ => within.refers held)) fun done m₃ _ refers => ?_
    cases done with
    | true => exact meets_next
    | false => exact meets_complain_type fun _ => refers
  | feGenusStore =>
    refine .intro fun active => meets_storeGuard (fun _ _ _ => Form.alike_setEssenceGuard)
      Form.links_setEssenceGuard ?_
    rw [← active.suspended, Machine.advance_suspended]
    exact fun assumed => Machine.guards_kept (calm assumed) next fun _ _ _ => rfl
  | fmGenusStore =>
    refine .intro fun active => meets_storeGuard (fun _ _ _ => Form.alike_setMatterGuard)
      Form.links_setMatterGuard ?_
    rw [← active.suspended, Machine.advance_suspended]
    exact fun assumed => Machine.guards_kept (calm assumed) next fun _ _ _ => rfl

theorem meets_step (calm : strict → ¬ m.DropsGuard) :
    Meets (.active strict m₀ h p) env step m Returns := by
  refine (meets_readFrame (g := fun f => .ok (f.ip, f.atEnd)) fun _ _ => by simp).bind ?_
  rintro ⟨ip, ended⟩ m' _ ⟨rfl, _⟩
  dsimp only
  split
  · exact .pure fun _ v same => by
      cases same
      exact Heap.refers_ni
  · refine (meets_nextWord).bind ?_
    rintro w m₁ _ ⟨rfl, word⟩
    split
    · exact .fail fun _ _ => by simp
    · rename_i opcode decoded
      exact meets_execute calls opcode calm (by rw [word]; exact decoded)

end Calls

end Run

end JourneyMachine
