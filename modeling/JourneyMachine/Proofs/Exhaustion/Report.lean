import JourneyMachine.Proofs.Closure.Loops
import JourneyMachine.Proofs.Image.Building

/-! The exception that is set aside for a full heap. It is never allocated again, so every handler
that has caught it holds the same object. Collections keep it and no edit of another object touches
it. What can change it is an assignment to its message, which is an instruction of the program. -/

namespace JourneyMachine

namespace Machine

/-- The exception that is set aside imitates the built-in form, whose only matter is a message.
Under `strict` its message is the one that it was made with. -/
structure Reserved (strict : Prop) (m : Machine) : Prop where
  tidy : m.heap.Tidy
  form : ∃ f, m.heap.get? m.builtins.exception = some (.form f) ∧ f.matter.map (·.name) = ["msg"]
  report : ∃ matter, m.heap.get? m.builtins.heapExhausted =
      some (.imitation { form := m.builtins.exception, matter }) ∧
    (strict → ∃ text, matter = #[.text text] ∧
      m.heap.get? text = some (.text heapExhaustedMessage))

def name? (m : Machine) (ahead : Nat) : Option String := do
  let f ← m.frames.head?
  let w ← m.word? ahead
  let v ← f.pattern.block.constants[w.toNat]?
  let h ← v.handle?
  (← m.heap.get? h).text?

/-- The next instruction assigns to the message of the exception that is set aside. -/
def RewritesReport (m : Machine) : Prop :=
  (m.word? 0).bind Opcode.ofWord? = some .istore ∧
  m.operand? 1 = some (.imitation m.builtins.heapExhausted) ∧ m.name? 3 = some "msg"

instance (m : Machine) : Decidable m.RewritesReport := inferInstanceAs (Decidable (_ ∧ _ ∧ _))

/-- What is set aside stays so. -/
structure Upholds (strict : Prop) (m m' : Machine) : Prop where
  builtins : m'.builtins = m.builtins
  reserved : m.Reserved strict → m'.Reserved strict

variable {strict : Prop} {m m₁ m₂ : Machine}

theorem Upholds.trans (first : Upholds strict m m₁) (second : Upholds strict m₁ m₂) :
    Upholds strict m m₂ where
  builtins := second.builtins.trans first.builtins
  reserved := fun reserved => second.reserved (first.reserved reserved)

theorem Upholds.of_same (heap : m₁.heap = m.heap) (builtins : m₁.builtins = m.builtins) :
    Upholds strict m m₁ := by
  refine ⟨builtins, fun ⟨tidy, form, report⟩ => ?_⟩
  rw [← heap] at tidy
  rw [← heap, ← builtins] at form report
  exact ⟨tidy, form, report⟩

theorem Upholds.refl : Upholds strict m m := .of_same rfl rfl

namespace Reserved

variable (reserved : m.Reserved strict)
include reserved

/-- What the roots lead to stays, and the exception that is set aside is a root. -/
theorem keep {heap : Heap} (tidy : heap.Tidy)
    (kept : ∀ h, m.heap.Reachable m.roots h → heap.get? h = m.heap.get? h) :
    ({ m with heap } : Machine).Reserved strict := by
  have root : ∀ {h o}, h ∈ [m.builtins.exception, m.builtins.ioError, m.builtins.heapExhausted] →
      m.heap.get? h = some o → m.heap.Reachable m.roots h :=
    fun member => .root (List.mem_append_right _ member)
  obtain ⟨f, form, names⟩ := reserved.form
  obtain ⟨matter, report, message⟩ := reserved.report
  have held := root (by simp) report
  refine ⟨tidy, ⟨f, (kept _ (root (by simp) form)).trans form, names⟩, matter,
    (kept _ held).trans report, fun assumed => ?_⟩
  obtain ⟨text, rfl, content⟩ := message assumed
  have inside : m.heap.Reachable m.roots text :=
    .child held report (by simp [Object.children, Value.handle?]) content
  exact ⟨text, rfl, (kept _ inside).trans content⟩

theorem allocate {object : Object} {result : Except Object Handle} {heap : Heap}
    (done : m.heap.allocate object m.roots = (result, heap)) :
    ({ m with heap } : Machine).Reserved strict := by
  have contract := Heap.allocate_meets reserved.tidy object m.roots
  have tidy := reserved.tidy.allocate object m.roots
  rw [done] at contract tidy
  exact reserved.keep tidy fun h reachable =>
    contract.kept h (reachable.mono fun _ => List.mem_append_left _)

theorem collect : m.collect.2.Reserved strict :=
  reserved.keep (reserved.tidy.collect m.roots) fun _ reachable =>
    Heap.get?_collect reserved.tidy reachable

end Reserved

/-- An edit leaves texts, names of matter, and the form of an imitation; under `strict` it is not of
the exception that is set aside. -/
theorem Upholds.edit {h : Handle} {f : Object → Object}
    (texts : ∀ content, m.heap.get? h = some (.text content) → f (.text content) = .text content)
    (forms : ∀ g, m.heap.get? h = some (.form g) → ∃ g', f (.form g) = .form g' ∧
      g'.matter.map (·.name) = g.matter.map (·.name))
    (imitations : ∀ i, m.heap.get? h = some (.imitation i) →
      ∃ i', f (.imitation i) = .imitation i' ∧ i'.form = i.form ∧
        (strict → h = m.builtins.heapExhausted → i' = i)) :
    m.Upholds strict { m with heap := m.heap.modify h f } := by
  have look : ∀ {k o}, m.heap.get? k = some o →
      (m.heap.modify h f).get? k = some (if k = h then f o else o) := by
    intro k o used
    rw [Heap.get?_modify]
    split
    · rename_i same
      rw [← same, used, Option.map_some]
    · exact used
  refine ⟨rfl, fun reserved => ⟨reserved.tidy.modify h f, ?_, ?_⟩⟩
  · obtain ⟨g, form, names⟩ := reserved.form
    have found := look form
    by_cases same : m.builtins.exception = h
    · obtain ⟨g', edited, still⟩ := forms g (same ▸ form)
      rw [if_pos same, edited] at found
      exact ⟨g', found, still.trans names⟩
    · rw [if_neg same] at found
      exact ⟨g, found, names⟩
  · obtain ⟨matter, report, message⟩ := reserved.report
    have found := look report
    -- The message stays as it is even if its text is the object edited.
    have kept : ∀ {text content}, m.heap.get? text = some (.text content) →
        (m.heap.modify h f).get? text = some (.text content) := by
      intro text content used
      rw [look used]
      split
      · rename_i same
        rw [texts content (same ▸ used)]
      · rfl
    by_cases same : m.builtins.heapExhausted = h
    · obtain ⟨⟨_, matter'⟩, edited, rfl, other⟩ := imitations _ (same ▸ report)
      rw [if_pos same, edited] at found
      refine ⟨matter', found, fun assumed => ?_⟩
      obtain ⟨text, rfl, content⟩ := message assumed
      cases other assumed same.symm
      exact ⟨text, rfl, kept content⟩
    · rw [if_neg same] at found
      refine ⟨matter, found, fun assumed => ?_⟩
      obtain ⟨text, rfl, content⟩ := message assumed
      exact ⟨text, rfl, kept content⟩

end Machine

end JourneyMachine
