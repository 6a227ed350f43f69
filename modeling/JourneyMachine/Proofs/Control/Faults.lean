import JourneyMachine.Machine.Step

namespace JourneyMachine

/-- A fault that calls no word unknown. -/
def Fault.Plain : Fault → Prop
  | .unknownOpcode .. | .unknownInterrupt .. => False
  | _ => True

/-- A word that a fault calls unknown stands for no opcode or no service. -/
def Fault.Justified : Fault → Prop
  | .unknownOpcode w _ => Opcode.ofWord? w = none
  | .unknownInterrupt w _ => Interrupt.ofWord? w = none
  | _ => True

theorem Fault.Plain.justified {fault : Fault} (plain : fault.Plain) : fault.Justified := by
  cases fault with
  | unknownOpcode | unknownInterrupt => exact plain.elim
  | _ => exact trivial

/-- If a look-up fails, its fault is plain. -/
class Sincere {α : Type} (x : Except Fault α) : Prop where
  plain : match x with
    | .ok _ => True
    | .error fault => fault.Plain

section Rules

variable {α β : Type} {x : Except Fault α}

theorem Sincere.plain_of_eq {fault : Fault} (sincere : Sincere x) (failed : x = .error fault) :
    fault.Plain := by
  subst failed
  exact sincere.plain

instance sincere_pure {a : α} : Sincere (pure a : Except Fault α) := ⟨trivial⟩

theorem Sincere.bind {k : α → Except Fault β} (first : Sincere x) (next : ∀ a, Sincere (k a)) :
    Sincere (x >>= k) := by
  cases x with
  | ok a => exact next a
  | error fault => exact ⟨first.plain⟩

instance sincere_bind {k : α → Except Fault β} [first : Sincere x] [next : ∀ a, Sincere (k a)] :
    Sincere (x >>= k) := first.bind next

theorem Sincere.ite {test : Prop} [Decidable test] {y : Except Fault α} (holds : Sincere x)
    (fails : Sincere y) : Sincere (if test then x else y) := by
  split
  · exact holds
  · exact fails

theorem Sincere.mapM {f : α → Except Fault β} {l : List α} (each : ∀ a, Sincere (f a)) :
    Sincere (l.mapM f) := by
  induction l with
  | nil => exact ⟨trivial⟩
  | cons a rest ih =>
    rw [List.mapM_cons]
    exact (each a).bind fun _ => ih.bind fun _ => ⟨trivial⟩

theorem Sincere.anyM {f : α → Except Fault Bool} {l : List α} (each : ∀ a, Sincere (f a)) :
    Sincere (l.anyM f) := by
  induction l with
  | nil => exact ⟨trivial⟩
  | cons a rest ih =>
    refine (each a).bind fun found => ?_
    cases found
    · exact ih
    · exact ⟨trivial⟩

theorem Sincere.findSomeM? {f : α → Except Fault (Option β)} {l : List α}
    (each : ∀ a, Sincere (f a)) : Sincere (l.findSomeM? f) := by
  induction l with
  | nil => exact ⟨trivial⟩
  | cons a rest ih =>
    refine (each a).bind fun found => ?_
    cases found
    · exact ih
    · exact ⟨trivial⟩

theorem Sincere.findM? {f : α → Except Fault Bool} {l : List α} (each : ∀ a, Sincere (f a)) :
    Sincere (l.findM? f) := by
  induction l with
  | nil => exact ⟨trivial⟩
  | cons a rest ih =>
    refine (each a).bind fun found => ?_
    cases found
    · exact ih
    · exact ⟨trivial⟩

end Rules

namespace Heap

variable {heap : Heap} {h : Handle}

theorem sincere_read {α : Type} {expected : Genus} {part? : Object → Option α} :
    Sincere (heap.read expected part? h) := by
  unfold read
  split
  · exact ⟨trivial⟩
  · split <;> exact ⟨trivial⟩

instance sincere_text : Sincere (heap.text h) := sincere_read

instance sincere_book : Sincere (heap.book h) := sincere_read

instance sincere_codex : Sincere (heap.codex h) := sincere_read

instance sincere_form : Sincere (heap.form h) := sincere_read

instance sincere_imitation : Sincere (heap.imitation h) := sincere_read

instance sincere_journey : Sincere (heap.journey h) := sincere_read

instance sincere_other : Sincere (heap.other h) := sincere_read

theorem sincere_descendsWithin {ancestor : Handle} (room : Nat) :
    Sincere (heap.descendsWithin ancestor room h) := by
  induction room generalizing h with
  | zero =>
    unfold descendsWithin
    split <;> exact ⟨trivial⟩
  | succ room ih =>
    unfold descendsWithin
    split
    · exact ⟨trivial⟩
    · exact (sincere_form).bind fun _ => .anyM fun _ => ih

instance sincere_isDescendant {ancestor : Handle} :
    Sincere (heap.isDescendant h ancestor) := sincere_descendsWithin _

theorem sincere_journeyNamed {name : String} {journeys : List Handle} :
    Sincere (heap.journeyNamed? name journeys) :=
  .findM? fun _ => (sincere_journey).bind fun _ => ⟨trivial⟩

theorem sincere_changeWithin {name : String} (room : Nat) :
    Sincere (heap.changeWithin name room h) := by
  induction room generalizing h with
  | zero => exact ⟨trivial⟩
  | succ room ih =>
    refine (sincere_form).bind fun f => (sincere_journeyNamed).bind fun found => ?_
    cases found
    · exact .findSomeM? fun _ => ih
    · exact ⟨trivial⟩

instance sincere_change {name : String} : Sincere (heap.change? h name) :=
  sincere_changeWithin _

instance sincere_changeOf {v : Value} {name : String} : Sincere (heap.changeOf? v name) := by
  cases v
  case imitation => exact (sincere_imitation).bind fun _ => sincere_change
  all_goals exact ⟨trivial⟩

theorem sincere_attributeWithin {name : String} (room : Nat) :
    Sincere (heap.attributeWithin name room h) := by
  induction room generalizing h with
  | zero => exact ⟨trivial⟩
  | succ room ih =>
    refine (sincere_form).bind fun f => (sincere_journeyNamed).bind fun found => ?_
    cases found with
    | some recollection => exact ⟨trivial⟩
    | none =>
      dsimp only
      split
      · exact ⟨trivial⟩
      · exact .findSomeM? fun _ => ih

instance sincere_attribute {name : String} : Sincere (heap.attribute? h name) :=
  sincere_attributeWithin _

instance sincere_typeName {v : Value} : Sincere (heap.typeName v) := by
  cases v
  case imitation =>
    exact (sincere_imitation).bind fun _ => (sincere_form).bind fun _ => ⟨trivial⟩
  all_goals exact ⟨trivial⟩

theorem sincere_dumpMatter {dump : Value → Except Fault String} (each : ∀ v, Sincere (dump v))
    (values : Array Value) (fields : List Matter) (i : Nat) :
    Sincere (dumpMatter dump values i fields) := by
  induction fields generalizing i with
  | nil => exact ⟨trivial⟩
  | cons field fields ih => exact (each _).bind fun _ => (ih _).bind fun _ => ⟨trivial⟩

theorem sincere_dumpWithin (room : Nat) (path : List Handle) (v : Value) :
    Sincere (heap.dumpWithin room path v) := by
  -- On the rounds, of which an object around others uses up one.
  induction room using Nat.strongRecOn generalizing path v with
  | ind room ih =>
    have deeper : ∀ {left} path w, room = left + 1 → Sincere (heap.dumpWithin left path w) := by
      rintro left path w rfl
      exact ih left (Nat.lt_succ_self left) path w
    unfold dumpWithin
    cases v with
    | ni | veracity | numeral => exact ⟨trivial⟩
    | text h => exact .ite ⟨trivial⟩ ((sincere_text).bind fun _ => ⟨trivial⟩)
    | journey h => exact .ite ⟨trivial⟩ ((sincere_journey).bind fun _ => ⟨trivial⟩)
    | other h =>
      refine .ite ⟨trivial⟩ ((sincere_other).bind fun o => ?_)
      cases o <;> exact ⟨trivial⟩
    | form h =>
      refine .ite ⟨trivial⟩ ?_
      cases room with
      | zero => exact ⟨trivial⟩
      | succ room =>
        refine (sincere_form).bind fun f => (Sincere.mapM fun field => ?_).bind fun _ => ⟨trivial⟩
        unfold dumpField
        split
        · exact ⟨trivial⟩
        · exact (deeper _ _ rfl).bind fun _ => ⟨trivial⟩
    | imitation h =>
      refine .ite ⟨trivial⟩ ?_
      cases room with
      | zero => exact ⟨trivial⟩
      | succ room =>
        refine (sincere_imitation).bind fun i => (sincere_form).bind fun f => ?_
        exact (sincere_dumpMatter (fun w => deeper _ w rfl) ..).bind fun _ => ⟨trivial⟩
    | book h =>
      refine .ite ⟨trivial⟩ ?_
      cases room with
      | zero => exact ⟨trivial⟩
      | succ room =>
        refine (sincere_book).bind fun pages => ?_
        exact (Sincere.mapM fun _ => deeper _ _ rfl).bind fun _ => ⟨trivial⟩
    | codex h =>
      refine .ite ⟨trivial⟩ ?_
      cases room with
      | zero => exact ⟨trivial⟩
      | succ room =>
        refine (sincere_codex).bind fun entries => (Sincere.mapM fun entry => ?_).bind fun _ => ⟨trivial⟩
        exact (deeper _ _ rfl).bind fun _ => (deeper _ _ rfl).bind fun _ => ⟨trivial⟩

instance sincere_dump {v : Value} : Sincere (heap.dump v) := sincere_dumpWithin ..

end Heap

instance Value.sincere_expectNumeral {v : Value} : Sincere v.expectNumeral := by
  cases v <;> exact ⟨trivial⟩

instance Value.sincere_expectHandle {v : Value} {genus : Genus} :
    Sincere (v.expectHandle genus) := by
  unfold Value.expectHandle
  split
  · split <;> exact ⟨trivial⟩
  · exact ⟨trivial⟩

instance Codeblock.sincere_word {block : Codeblock} {ip : Nat} :
    Sincere (block.word ip) := by
  unfold Codeblock.word
  split <;> exact ⟨trivial⟩

instance Codeblock.sincere_constant {block : Codeblock} {index : Word} :
    Sincere (block.constant index) := by
  unfold Codeblock.constant
  split <;> exact ⟨trivial⟩

namespace Frame

variable {f : Frame}

instance sincere_register {i : Nat} : Sincere (f.register i) := by
  unfold register
  split <;> exact ⟨trivial⟩

instance sincere_setRegister {i : Nat} {v : Value} : Sincere (f.setRegister i v) := by
  unfold setRegister
  split <;> exact ⟨trivial⟩

instance sincere_jump {target : Nat} : Sincere (f.jump target) := by
  unfold jump
  split <;> exact ⟨trivial⟩

end Frame

end JourneyMachine
