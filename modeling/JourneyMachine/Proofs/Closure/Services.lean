import JourneyMachine.Proofs.Closure.Calls

namespace JourneyMachine

open Machine (Within Active)

namespace Machine

variable {m : Machine}

def advance (m : Machine) : Machine :=
  { m with frames := m.frames.modifyHead fun f => { f with ip := f.ip + 1 } }

@[simp] theorem advance_heap : m.advance.heap = m.heap := rfl

@[simp] theorem advance_top : m.advance.top = m.top := by
  unfold top advance
  cases m.frames <;> rfl

theorem advance_word? (ahead : Nat) : m.advance.word? ahead = m.word? (ahead + 1) := by
  unfold word? advance
  cases m.frames with
  | nil => rfl
  | cons f rest =>
    change f.pattern.block.code[f.ip + 1 + ahead]? = f.pattern.block.code[f.ip + (ahead + 1)]?
    rw [Nat.add_right_comm, Nat.add_assoc]

theorem advance_operand? (ahead : Nat) : m.advance.operand? ahead = m.operand? (ahead + 1) := by
  unfold operand?
  rw [advance_word?]
  unfold advance
  cases m.frames <;> rfl

theorem operand?_mem {ahead : Nat} {v : Value} (same : m.operand? ahead = some v) : v ∈ m.top := by
  unfold operand? at same
  unfold top
  cases frames : m.frames with
  | nil => simp [frames] at same
  | cons f rest =>
    simp only [frames, List.head?_cons, Option.bind_eq_bind, Option.bind_some,
      Option.bind_eq_some_iff] at same
    obtain ⟨w, _, found⟩ := same
    exact Array.mem_toList_iff.mpr (Array.mem_of_getElem? found)

end Machine

namespace Run

variable {strict : Prop} {env : Env} {m m₀ : Machine} {h : Handle} {p : Pattern}

section Operands

theorem meets_nextWord :
    Meets (.active strict m₀ h p) env nextWord m fun w m' =>
      m' = m.advance ∧ m.word? 0 = some w := by
  refine meets_onFrame (fun frame slot => ?_) fun frame rest w after frames same => ?_
  · cases found : frame.pattern.block.code[frame.ip]? with
    | none => simp [Codeblock.word, found, Bind.bind, Except.bind]
    | some w => simp [Codeblock.word, found, Bind.bind, Except.bind, Pure.pure, Except.pure]
  · cases found : frame.pattern.block.code[frame.ip]? with
    | none => simp [Codeblock.word, found, Bind.bind, Except.bind] at same
    | some w =>
      simp only [Codeblock.word, found, Bind.bind, Except.bind, Pure.pure, Except.pure,
        Except.ok.injEq, Prod.mk.injEq] at same
      obtain ⟨rfl, rfl⟩ := same
      refine ⟨rfl, rfl, fun _ there => .inl there, ?_, ?_⟩
      · simp [Machine.advance, frames]
      · simp [Machine.word?, frames, found]

theorem meets_nextIndex :
    Meets (.active strict m₀ h p) env nextIndex m fun i m' =>
      m' = m.advance ∧ ∃ w, m.word? 0 = some w ∧ i = w.toNat :=
  (meets_nextWord).bind fun w _ _ post => .pure fun _ => ⟨post.1, w, post.2, rfl⟩

theorem meets_nextValue :
    Meets (.active strict m₀ h p) env nextValue m fun v m' =>
      m' = m.advance ∧ m.operand? 0 = some v := by
  refine (meets_nextIndex).bind ?_
  rintro _ m' _ ⟨rfl, w, word, rfl⟩
  refine (meets_register w.toNat).weaken ?_
  rintro v m₁ _ ⟨rfl, f, below, frames, found⟩
  refine ⟨rfl, ?_⟩
  unfold Machine.advance at frames
  cases before : m.frames with
  | nil => simp [before] at frames
  | cons g rest =>
    rw [before] at frames
    cases frames
    simp [Machine.operand?, before, word, found]

theorem meets_store {v : Value} (refers : m.heap.Refers v) :
    Meets (.active strict m₀ h p) env (store v) m fun _ _ => True := by
  refine (meets_nextIndex).bind ?_
  rintro i m' _ ⟨rfl, _⟩
  exact (meets_setRegister (m := m.advance) i refers).weaken fun _ _ _ _ => trivial

/-- The constants of a pattern are held by the journey of its frame. -/
theorem meets_nextConstant :
    Meets (.active strict m₀ h p) env nextConstant m fun v m' =>
      m' = m.advance ∧ m.heap.Refers v := by
  refine (meets_nextWord).bind ?_
  rintro w m' _ ⟨rfl, _⟩
  refine .intro fun active => ?_
  refine (meets_readFrame (g := (·.pattern.block.constant w)) fun f slot => ?_).weaken ?_
  · unfold Codeblock.constant
    split <;> simp
  · rintro v m₁ _ ⟨rfl, f, rest, frames, same⟩
    refine ⟨rfl, ?_⟩
    unfold Codeblock.constant at same
    split at same
    · rename_i found
      cases same
      obtain ⟨j, used, pattern⟩ := active.closed.patterns f (by rw [frames]; simp)
      refine active.closed.heap f.journey _ used v ?_
      exact List.mem_flatMap.mpr ⟨f.pattern, pattern,
        Array.mem_toList_iff.mpr (Array.mem_of_getElem? found)⟩
    · contradiction

theorem meets_nextValues (count : Nat) :
    Meets (.active strict m₀ h p) env (nextValues count) m fun values m' =>
      m'.heap = m.heap ∧ m'.top = m.top ∧ ∀ v ∈ values, v ∈ m.top := by
  induction count generalizing m with
  | zero => exact .pure fun _ => ⟨rfl, rfl, fun _ member => absurd member List.not_mem_nil⟩
  | succ count ih =>
    refine (meets_nextValue).bind ?_
    rintro v m' _ ⟨rfl, read⟩
    refine ih.bind fun values m₁ _ post => .pure fun _ => ?_
    obtain ⟨heap, top, members⟩ := post
    rw [Machine.advance_top] at top members
    refine ⟨heap, top, List.forall_mem_cons.mpr ⟨Machine.operand?_mem read, members⟩⟩

theorem meets_nextPairs (count : Nat) :
    Meets (.active strict m₀ h p) env (nextPairs count) m fun pairs m' =>
      m'.heap = m.heap ∧ m'.top = m.top ∧
        ∀ v ∈ pairs.flatMap (fun (k, v) => [k, v]), v ∈ m.top := by
  induction count generalizing m with
  | zero => exact .pure fun _ => ⟨rfl, rfl, fun _ member => absurd member List.not_mem_nil⟩
  | succ count ih =>
    refine (meets_nextValue).bind ?_
    rintro k m' _ ⟨rfl, readKey⟩
    refine (meets_nextValue).bind ?_
    rintro v m' _ ⟨rfl, readValue⟩
    refine ih.bind fun pairs m₁ _ post => .pure fun _ => ?_
    obtain ⟨heap, top, members⟩ := post
    have value := Machine.operand?_mem readValue
    simp only [Machine.advance_top] at top members value
    refine ⟨heap, top, ?_⟩
    rw [List.flatMap_cons]
    exact List.forall_mem_cons.mpr ⟨Machine.operand?_mem readKey,
      List.forall_mem_cons.mpr ⟨value, members⟩⟩

theorem meets_countedValues :
    Meets (.active strict m₀ h p) env countedValues m fun values m' =>
      m'.heap = m.heap ∧ m'.top = m.top ∧ ∀ v ∈ values, v ∈ m.top := by
  refine (meets_nextIndex).bind ?_
  rintro count m' _ ⟨rfl, _⟩
  refine (meets_nextValues count).weaken fun _ _ _ post => ?_
  rwa [Machine.advance_top] at post

end Operands

section Outside

variable {R : Region strict}

theorem meets_print (content : String) (newline : Bool) :
    Meets R env (print content newline) m fun _ m' => m'.heap = m.heap := by
  refine (meets_exchange _).bind fun answer m' _ same => ?_
  split
  · exact .pure fun _ => same
  · exact meets_report _ _

theorem meets_exit {α : Type} {Q : α → Machine → Prop} (code : Int64) :
    Meets R env (exit code : Run α) m Q := by
  refine (Meets.changes (Q := fun _ _ => True) (fun _ => rfl) (fun holds => ⟨?_, trivial⟩)
    fun _ => .same rfl rfl).bind fun _ _ _ _ => .fail fun _ _ => by simp
  exact R.stable holds (.same (R.closed holds) rfl rfl rfl rfl rfl rfl)

theorem meets_prompt : Meets R env prompt m fun v m' => m'.heap.Refers v := by
  refine (meets_exchange _).bind fun answer m' _ _ => ?_
  split
  · exact meets_newText _
  · exact meets_report _ _

theorem meets_system (command : String) :
    Meets R env (system command) m fun v m' => m'.heap.Refers v := by
  refine (meets_exchange _).bind fun answer m' _ _ => ?_
  split
  · exact meets_newText _
  · exact meets_report _ _

theorem meets_babel (calls : env.Calls strict) {program input : Value} {args : List Value}
    (heldProgram : program ∈ m₀.held) (heldInput : input ∈ m₀.held)
    (held : ∀ v ∈ args, v ∈ m₀.held) :
    Meets (.within strict m₀) env (babel program input args) m fun v m' => m'.heap.Refers v := by
  refine .intro fun within => ?_
  refine (meets_toText calls (within.refers heldProgram)).bind fun name m₁ _ _ => ?_
  refine (Meets.mapM (R := .within strict m₀) fun v member m₂ => .intro fun within =>
    meets_toText calls (within.refers (held v member))).bind fun texts m₂ later _ => ?_
  refine (meets_toText calls (later.refers heldInput)).bind fun content m₃ _ _ => ?_
  refine (meets_exchange _).bind fun answer m₄ _ _ => ?_
  split
  · exact meets_newText _
  · exact meets_report _ _

end Outside

section Services

variable {α : Type} {Q : α → Machine → Prop}

/-- A computation on a register that the next word names. -/
theorem meets_operand {f : Value → Run α}
    (each : ∀ v m', Active strict m₀ h p m' → v ∈ m'.top →
      Meets (.active strict m₀ h p) env (f v) m' Q) :
    Meets (.active strict m₀ h p) env (nextValue >>= f) m Q := by
  refine (meets_nextValue).bind ?_
  rintro v m' active ⟨rfl, read⟩
  exact each v _ active (by rw [Machine.advance_top]; exact Machine.operand?_mem read)

/-- A computation on two registers that the next words name. -/
theorem meets_operands {f : Value → Value → Run α}
    (each : ∀ a b m', Active strict m₀ h p m' → a ∈ m'.top → b ∈ m'.top →
      Meets (.active strict m₀ h p) env (f a b) m' Q) :
    Meets (.active strict m₀ h p) env (do f (← nextValue) (← nextValue)) m Q := by
  refine meets_operand fun a m' _ first => ?_
  refine (meets_nextValue).bind ?_
  rintro b m₁ active ⟨rfl, read⟩
  exact each a b _ active (by rwa [Machine.advance_top])
    (by rw [Machine.advance_top]; exact Machine.operand?_mem read)

theorem meets_operands₃ {f : Value → Value → Value → Run α}
    (each : ∀ a b c m', Active strict m₀ h p m' → a ∈ m'.top → b ∈ m'.top → c ∈ m'.top →
      Meets (.active strict m₀ h p) env (f a b c) m' Q) :
    Meets (.active strict m₀ h p) env (do f (← nextValue) (← nextValue) (← nextValue)) m Q := by
  refine meets_operands fun a b m' _ first second => ?_
  refine (meets_nextValue).bind ?_
  rintro c m₁ active ⟨rfl, read⟩
  exact each a b c _ active (by rwa [Machine.advance_top]) (by rwa [Machine.advance_top])
    (by rw [Machine.advance_top]; exact Machine.operand?_mem read)

theorem top_refers (active : Active strict m₀ h p m) {v : Value} (member : v ∈ m.top) :
    m.heap.Refers v :=
  active.closed.held (Machine.top_sub_held member)

variable (calls : env.Calls strict)
include calls

theorem meets_serve (service : Interrupt) :
    Meets (.active strict m₀ h p) env (serve service) m fun v m' => m'.heap.Refers v := by
  have text : ∀ {k : String → Run Value},
      (∀ c m', Meets (.active strict m₀ h p) env (k c) m' fun v m' => m'.heap.Refers v) →
      Meets (.active strict m₀ h p) env (nextValue >>= fun v => toText v >>= k) m
        fun v m' => m'.heap.Refers v := fun rest =>
    meets_operand fun v m' active member =>
      (meets_toText calls (top_refers active member)).bind fun _ _ _ _ => rest _ _
  have numeral : ∀ {k : Int64 → Run Value},
      (∀ n m', Meets (.active strict m₀ h p) env (k n) m' fun v m' => m'.heap.Refers v) →
      Meets (.active strict m₀ h p) env (nextValue >>= fun v => toNumeral v >>= k) m
        fun v m' => m'.heap.Refers v := fun rest =>
    meets_operand fun v m' active member =>
      (meets_toNumeral calls (top_refers active member)).bind fun _ _ _ _ => rest _ _
  cases service with
  | toNumeral => exact numeral fun _ _ => .pure fun _ => Heap.refers_numeral _
  | toText =>
    exact meets_operand fun v m' active member =>
      meets_toTextValue calls (top_refers active member)
  | toVeracity =>
    exact meets_operand fun v m' active member =>
      (meets_toVeracity calls (top_refers active member)).bind fun _ _ _ _ =>
        .pure fun _ => Heap.refers_veracity _
  | toBook =>
    exact meets_operand fun v m' active member =>
      .lift (meets_toBook calls (Machine.top_sub_held member))
  | toCodex =>
    exact meets_operand fun v m' active member =>
      .lift (meets_toCodex calls (Machine.top_sub_held member))
  | kindof =>
    exact meets_operand fun v m' active member => meets_genusOf (top_refers active member)
  | length =>
    exact meets_operand fun v m' active member =>
      (meets_length calls (top_refers active member)).bind fun _ _ _ _ =>
        .pure fun _ => Heap.refers_numeral _
  | arabic | roman => exact numeral fun _ _ => meets_newText _
  | ascii =>
    exact meets_operand fun v m' active member => meets_ascii (top_refers active member)
  | print | println =>
    exact text fun _ _ => (meets_print _ _).bind fun _ _ _ _ => .pure fun _ => Heap.refers_ni
  | dump =>
    refine meets_operand fun v m' active member => ?_
    refine (Meets.looks fun _ => Heap.gives_dump active.closed.heap
      fun _ => top_refers active member).bind ?_
    rintro shown m₁ _ ⟨rfl, _⟩
    refine (meets_print shown false).bind fun _ m₂ _ same => .pure fun _ => ?_
    rw [same]
    exact top_refers active member
  | prompt => exact meets_prompt
  | system => exact text fun _ _ => meets_system _
  | exit => exact numeral fun n _ => meets_exit n
  | random =>
    exact .instant rfl (fun _ => rfl) (fun active =>
      ⟨active.within (.same active.closed rfl rfl rfl rfl rfl rfl), Heap.refers_numeral _⟩)
        fun _ => .same rfl rfl
  | codexNew =>
    refine (meets_nextIndex).bind ?_
    rintro count m' _ ⟨rfl, _⟩
    refine (meets_nextPairs count).bind ?_
    rintro pairs m₁ _ ⟨_, top, members⟩
    refine .lift (meets_newCodex calls fun v member => Machine.top_sub_held ?_)
    rw [top]
    exact members v member
  | bookNew =>
    refine (meets_countedValues).bind ?_
    rintro values m' active ⟨_, top, members⟩
    refine meets_newBook fun _ v member => top_refers active ?_
    rw [top]
    exact members v (by simpa using member)
  | substr =>
    exact meets_operands₃ fun a b c m' active first second third =>
      .lift (meets_substr calls (Machine.top_sub_held first) (Machine.top_sub_held second)
        (Machine.top_sub_held third))
  | arrayInsert =>
    refine meets_operands₃ fun a b c m' active first second third => ?_
    refine Meets.lift (Meets.bind (meets_insertPage calls (Machine.top_sub_held first)
      (top_refers active second) (Machine.top_sub_held third)) fun _ m₁ within _ => ?_)
    exact .pure fun _ => within.refers (Machine.top_sub_held third)
  | arrayDelete =>
    exact meets_operands fun a b m' active first second =>
      .lift (meets_delete calls (Machine.top_sub_held first) (top_refers active second))
  | babel =>
    refine meets_operands fun a b m' active first second => ?_
    refine (meets_countedValues).bind ?_
    rintro values m₁ _ ⟨_, top, members⟩
    refine .lift (meets_babel calls (Machine.top_sub_held (top ▸ first))
      (Machine.top_sub_held (top ▸ second)) fun v member => Machine.top_sub_held ?_)
    rw [top]
    exact members v member
  | fopen =>
    refine meets_operands fun a b m' active first second => .lift ?_
    refine (meets_toText calls (top_refers active first)).bind fun _ m₁ within _ => ?_
    refine (meets_toText calls (within.refers (Machine.top_sub_held second))).bind
      fun _ _ _ _ => meets_openScroll _ _

theorem meets_interrupt :
    Meets (.active strict m₀ h p) env interrupt m fun _ _ => True := by
  refine (meets_readFrame (g := fun f => .ok f.ip) fun _ _ => by simp).bind fun ip m' _ _ => ?_
  refine (meets_nextWord).bind fun w m₁ _ _ => ?_
  split
  · exact .fail fun _ _ => by simp
  · exact (meets_serve calls _).bind fun _ _ _ refers => meets_store refers

end Services

end Run

end JourneyMachine
