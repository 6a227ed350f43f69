import Mathlib.Data.List.Forall2
import Mathlib.Order.BooleanAlgebra.Set
import JourneyMachine.Value

/-! Rendering with marks. What is being rendered is marked, and a value that is met under its own
mark is abbreviated. A mark is taken off again when the value has been rendered, so that a rendering
leaves the marks it found, and each of the values in a container is rendered as it would be alone. -/

namespace JourneyMachine

/-- What is shown of a value: the values in it, and how their texts are put together. -/
structure Content where
  parts : List Value
  whole : List String → String

def Content.word (text : String) : Content := ⟨[], fun _ => text⟩

/-- How values are shown: which slot is marked while the content of a value is shown and what stands
for the content under that mark, and the content, if it can be shown. -/
structure Style where
  mark? : Value → Option (Handle × String)
  content? : Value → Option Content

namespace Style

/-- Values are rendered one after the other, from some marks to others. A derivation is a recursion
that ends. -/
inductive Renders (style : Style) : Set Handle → List Value → List String → Set Handle → Prop
  | nil {marks} : Renders style marks [] [] marks
  | bare {v c shown rest texts marks inner outer} :
      style.mark? v = none → style.content? v = some c →
      Renders style marks c.parts shown inner → Renders style inner rest texts outer →
      Renders style marks (v :: rest) (c.whole shown :: texts) outer
  | again {v h short rest texts marks outer} :
      style.mark? v = some (h, short) → h ∈ marks → Renders style marks rest texts outer →
      Renders style marks (v :: rest) (short :: texts) outer
  | nested {v h short c shown rest texts marks inner outer} :
      style.mark? v = some (h, short) → h ∉ marks → style.content? v = some c →
      Renders style (insert h marks) c.parts shown inner →
      Renders style (inner \ {h}) rest texts outer →
      Renders style marks (v :: rest) (c.whole shown :: texts) outer

variable {style : Style} {marks inner outer : Set Handle} {v : Value} {vs rest : List Value}
  {s short : String} {texts others shown : List String} {h : Handle} {c : Content}

/-- A rendering takes off the marks it puts on, and no others. -/
theorem Renders.restores (renders : style.Renders marks vs texts outer) : outer = marks := by
  induction renders with
  | nil => rfl
  | bare _ _ _ _ parts later => exact later.trans parts
  | again _ _ _ later => exact later
  | nested _ fresh _ _ _ parts later =>
    rw [later, parts]
    exact Set.insert_sdiff_self_of_notMem fresh

theorem Renders.unique (renders : style.Renders marks vs texts outer)
    (other : style.Renders marks vs others inner) : texts = others := by
  -- On the first rendering; in each case the mark of the value decides how the other one begins.
  induction renders generalizing others inner with
  | nil =>
    cases other
    rfl
  | bare plain found one _ parts later =>
    cases other with
    | bare _ found' one' more =>
      cases found.symm.trans found'
      rw [parts one']
      -- Both go on from the marks they started with.
      rw [one'.restores, ← one.restores] at more
      rw [later more]
    | again mark => cases plain.symm.trans mark
    | nested mark => cases plain.symm.trans mark
  | again mark marked _ later =>
    cases other with
    | bare plain => cases plain.symm.trans mark
    | again mark' _ more =>
      cases mark.symm.trans mark'
      rw [later more]
    | nested mark' fresh =>
      cases mark.symm.trans mark'
      exact absurd marked fresh
  | nested mark fresh found one _ parts later =>
    cases other with
    | bare plain => cases plain.symm.trans mark
    | again mark' marked =>
      cases mark.symm.trans mark'
      exact absurd marked fresh
    | nested mark' _ found' one' more =>
      cases mark.symm.trans mark'
      cases found.symm.trans found'
      rw [parts one']
      rw [one'.restores, ← one.restores] at more
      rw [later more]

section Single

theorem Renders.content (plain : style.mark? v = none) (found : style.content? v = some c)
    (parts : style.Renders marks c.parts shown marks) :
    style.Renders marks [v] [c.whole shown] marks :=
  .bare plain found parts .nil

theorem Renders.abbreviated (mark : style.mark? v = some (h, short)) (marked : h ∈ marks) :
    style.Renders marks [v] [short] marks :=
  .again mark marked .nil

theorem Renders.full (mark : style.mark? v = some (h, short)) (fresh : h ∉ marks)
    (found : style.content? v = some c)
    (parts : style.Renders (insert h marks) c.parts shown (insert h marks)) :
    style.Renders marks [v] [c.whole shown] marks := by
  refine .nested mark fresh found parts ?_
  rw [Set.insert_sdiff_self_of_notMem fresh]
  exact .nil

theorem Renders.cons (first : style.Renders marks [v] [s] marks)
    (later : style.Renders marks rest texts marks) :
    style.Renders marks (v :: rest) (s :: texts) marks := by
  cases first with
  | bare plain found parts last =>
    cases last
    exact .bare plain found parts later
  | again mark marked => exact .again mark marked later
  | nested mark fresh found parts last =>
    refine .nested mark fresh found parts ?_
    rwa [← last.restores]

end Single

/-- Under any marks, each value is rendered as it would be alone. -/
theorem Renders.each (renders : style.Renders marks vs texts outer) :
    List.Forall₂ (fun v s => style.Renders marks [v] [s] marks) vs texts := by
  induction renders with
  | nil => exact .nil
  | bare plain found one _ _ later =>
    have same := one.restores
    subst same
    exact .cons (.content plain found one) later
  | again mark marked _ later => exact .cons (.abbreviated mark marked) later
  | nested mark fresh found one _ _ later =>
    have same := one.restores
    subst same
    rw [Set.insert_sdiff_self_of_notMem fresh] at later
    exact .cons (.full mark fresh found one) later

theorem Renders.parts (renders : style.Renders marks [v] [s] outer)
    (mark : style.mark? v = some (h, short)) (fresh : h ∉ marks) :
    ∃ c shown, style.content? v = some c ∧
      style.Renders (insert h marks) c.parts shown (insert h marks) ∧ s = c.whole shown := by
  cases renders with
  | bare plain => cases plain.symm.trans mark
  | again mark' marked =>
    cases mark.symm.trans mark'
    exact absurd marked fresh
  | nested mark' _ found one =>
    cases mark.symm.trans mark'
    exact ⟨_, _, found, one.restores ▸ one, rfl⟩

theorem Renders.at {i : Nat} (renders : style.Renders marks vs texts outer)
    (there : vs[i]? = some v) : ∃ s, texts[i]? = some s ∧ style.Renders marks [v] [s] marks := by
  obtain ⟨inside, rfl⟩ := List.getElem?_eq_some_iff.mp there
  have each := List.forall₂_iff_get.mp renders.each
  have within : i < texts.length := each.1 ▸ inside
  exact ⟨texts[i], List.getElem?_eq_getElem within, each.2 i inside within⟩

/-- What is met off its mark is rendered in full, with only its own mark added for its parts, and
wherever else it occurs it is rendered in full again. -/
theorem Renders.twice {i : Nat} (renders : style.Renders marks vs texts outer)
    (there : vs[i]? = some v) (mark : style.mark? v = some (h, short)) (fresh : h ∉ marks) :
    ∃ c shown, style.content? v = some c ∧
      style.Renders (insert h marks) c.parts shown (insert h marks) ∧
      ∀ j : Nat, vs[j]? = some v → texts[j]? = some (c.whole shown) := by
  obtain ⟨s, _, one⟩ := renders.at there
  obtain ⟨c, shown, found, parts, rfl⟩ := one.parts mark fresh
  refine ⟨c, shown, found, parts, fun j again => ?_⟩
  obtain ⟨s', text, other⟩ := renders.at again
  cases one.unique other
  exact text

/-- Where a value can be rendered, nothing else can come out, and no mark is left. -/
theorem Renders.only (renders : style.Renders marks [v] [s] marks) :
    style.Renders marks [v] texts outer ↔ texts = [s] ∧ outer = marks := by
  constructor
  · exact fun other => ⟨other.unique renders, other.restores⟩
  · rintro ⟨rfl, rfl⟩
    exact renders

end Style

end JourneyMachine
