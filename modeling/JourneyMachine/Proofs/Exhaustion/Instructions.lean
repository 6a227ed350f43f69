import JourneyMachine.Proofs.Control.Nesting
import JourneyMachine.Proofs.Composition.Instructions
import JourneyMachine.Proofs.Exhaustion.Contracts

namespace JourneyMachine

theorem Codeblock.constant_ok {block : Codeblock} {w : Word} {v : Value}
    (read : block.constant w = .ok v) : block.constants[w.toNat]? = some v := by
  unfold constant at read
  split at read
  · rename_i found
    exact found.trans (congrArg some (Except.ok.inj read))
  · contradiction

theorem Value.handle_of_expect {genus : Genus} {v : Value} {h : Handle}
    (expected : v.expectHandle genus = .ok h) : v.handle? = some h := by
  unfold expectHandle at expected
  split at expected
  · rename_i k found
    split at expected
    · exact found.trans (congrArg some (Except.ok.inj expected))
    · contradiction
  · contradiction

namespace Run

variable {α : Type} {strict : Prop} {env : Env} {m m' : Machine}

/-- What holds of a machine and of the fetches of a computation may be assumed. -/
theorem Upholds.assuming {c : Run α} (relaxed : Upholds False env c m)
    (given : Truthful strict env c m → m.Reserved strict → Upholds strict env c m) :
    Upholds strict env c m :=
  ⟨relaxed.steady, relaxed.builtins, fun truthful held =>
    (given truthful held).reserved truthful held⟩

section Assignments

variable {v new : Value} {name : String} (calls : env.Loyal)
include calls

theorem upholds_editImitation {h : Handle} {f : Imitation → Imitation}
    (form : ∀ i, (f i).form = i.form) (apart : strict → h ≠ m.builtins.heapExhausted) :
    Upholds strict env (editImitation h f) m := by
  refine .bind (upholds (c := discard (imitation h)) calls m) fun _ m₁ _ builtins => ?_
  refine .modify (fun _ => rfl) (.edit (fun _ _ => rfl) (fun g _ => ⟨g, rfl, rfl⟩) fun i _ => ?_)
  exact ⟨f i, rfl, form i, fun assumed same => absurd (builtins ▸ same) (apart assumed)⟩

theorem upholds_assign (apart : strict → ∀ h i f, v = .imitation h →
      m.heap.get? h = some (.imitation i) → m.heap.get? i.form = some (.form f) →
      f.matterIndex? name ≠ none → h ≠ m.builtins.heapExhausted) :
    Upholds strict env (setAttribute v name new) m := by
  cases v
  case imitation h =>
    refine .bind (upholds calls m) fun i m₁ readImitation _ => ?_
    obtain ⟨imitation, rfl⟩ := (onHeap_eq_ok).mp readImitation
    refine .bind (upholds calls m) fun f m₁ readForm _ => ?_
    obtain ⟨form, rfl⟩ := (onHeap_eq_ok).mp readForm
    split
    · exact upholds calls m
    · rename_i k found
      -- The guard may run code, but the built-ins stay in their slots.
      refine .bind (upholds calls m) fun _ m₁ _ builtins => ?_
      refine Upholds.bind (upholds_editImitation calls (fun _ => rfl) fun assumed same => ?_)
        fun _ m₂ _ _ => upholds calls m₂
      exact apart assumed h i f rfl (Heap.imitation_ok imitation) (Heap.form_ok form)
        (by simp [found]) (same.trans (congrArg _ builtins))
  all_goals
    refine Composed.loyal ?_ calls m
    exact composed_setAttribute fun _ same => by cases same

/-- The form of the exception that is set aside has no other field than the message. -/
theorem upholds_setAttribute
    (other : strict → v = .imitation m.builtins.heapExhausted → name ≠ "msg") :
    Upholds strict env (setAttribute v name new) m := by
  refine .assuming (upholds_assign calls False.elim) fun _ held => upholds_assign calls ?_
  rintro assumed _ i f rfl imitation form found rfl
  obtain ⟨g, exception, names⟩ := held.form
  obtain ⟨matter, report, _⟩ := held.report
  cases imitation.symm.trans report
  cases form.symm.trans exception
  have named : ∀ x ∈ f.matter, x.name = "msg" := fun x member => by
    simpa [names] using List.mem_map_of_mem (f := (·.name)) member
  apply found
  simp only [Form.matterIndex?, List.findIdx?_eq_none_iff, beq_eq_false_iff_ne]
  exact fun x member => named x member ▸ (other assumed rfl).symm

end Assignments

section Reading

variable {f : Frame} {below : List Frame} {ahead : Nat} (frames : m.frames = f :: below)
include frames

theorem word_ahead {w : Word} (word : f.pattern.block.word (f.ip + ahead) = .ok w) :
    m.word? ahead = some w := by
  unfold Codeblock.word at word
  split at word
  · rename_i found
    cases word
    simp [Machine.word?, frames, found]
  · contradiction

theorem operand_ahead {v : Value}
    (done : nextValue env (m.movedTo f below (f.ip + ahead)) = .ok v m') :
    m.operand? ahead = some v ∧ m' = m.movedTo f below (f.ip + (ahead + 1)) := by
  obtain ⟨w, word, value, rfl⟩ := nextValue_eq_ok (m := m.movedTo f below _) rfl done
  exact ⟨by simpa [Machine.operand?, word_ahead frames word, frames] using value, rfl⟩

theorem name_ahead {name : String}
    (done : nextName env (m.movedTo f below (f.ip + ahead)) = .ok name m') :
    m.name? ahead = some name ∧ m'.builtins = m.builtins := by
  obtain ⟨v, m₁, read, rest⟩ := (bind_eq_ok).mp done
  obtain ⟨w, word, constant, rfl⟩ := nextConstant_eq_ok (m := m.movedTo f below _) rfl read
  obtain ⟨h, m₁, expected, rest⟩ := (bind_eq_ok).mp rest
  obtain ⟨handle, rfl⟩ := (ofExcept_eq_ok).mp expected
  obtain ⟨text, rfl⟩ := (onHeap_eq_ok).mp rest
  have content : m.heap.get? h = some (.text name) := Heap.text_ok text
  have found : f.pattern.block.constants[w.toNat]? = some v := Codeblock.constant_ok constant
  refine ⟨?_, rfl⟩
  simp [Machine.name?, word_ahead frames word, frames, found, Value.handle_of_expect handle,
    content, Object.text?]

end Reading

section Assigning

variable (calls : env.Loyal)
include calls

theorem upholds_istore {f : Frame} {below : List Frame} (frames : m.frames = f :: below)
    (quiet : strict → ¬ (m.operand? 1 = some (.imitation m.builtins.heapExhausted) ∧
      m.name? 3 = some "msg")) :
    Upholds strict env (execute .istore) (m.movedTo f below (f.ip + 1)) := by
  refine .bind (upholds calls _) fun v m₁ first _ => ?_
  obtain ⟨target, rfl⟩ := operand_ahead frames first
  refine .bind (upholds calls _) fun new m₂ second _ => ?_
  obtain ⟨_, rfl⟩ := operand_ahead frames second
  refine .bind (upholds calls _) fun name m₃ third _ => ?_
  obtain ⟨named, builtins⟩ := name_ahead frames third
  refine Upholds.bind (upholds_setAttribute calls ?_) fun done m₄ _ _ =>
    (Composed.ite composed_pure composed_bind).loyal calls m₄
  rintro assumed rfl rfl
  rw [builtins] at target
  exact quiet assumed ⟨target, named⟩

theorem upholds_step (quiet : strict → ¬ m.RewritesReport) : Upholds strict env step m := by
  refine .bind (upholds calls m) fun standing m₁ looked _ => ?_
  obtain ⟨f, below, changed, frames, same, rfl⟩ := onFrame_eq_ok looked
  cases same
  have here : { m with frames := f :: below } = m := by rw [← frames]
  rw [here]
  dsimp only
  split
  · exact upholds calls _
  · refine .bind (upholds calls _) fun w m₁ read _ => ?_
    obtain ⟨word, rfl⟩ := nextWord_eq_ok frames read
    split
    · exact upholds calls _
    · rename_i opcode known
      by_cases assigns : opcode = .istore
      · subst assigns
        refine upholds_istore calls frames fun assumed both => quiet assumed ⟨?_, both⟩
        have there : m.word? 0 = some w := word_ahead frames word
        rw [there]
        exact known
      · exact (composed_execute fun same => absurd same assigns).loyal calls _

end Assigning

end Run

end JourneyMachine
