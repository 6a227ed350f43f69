import JourneyMachine.Proofs.Closure.Extents
import Mathlib.Data.Fintype.EquivFin
import Mathlib.Data.List.Forall2

/-! When two values are to be equal. One round compares scalars by value, texts by content, books
page by page, codices key by key and everything else by identity; what is inside books and codices
it leaves to a relation. Values are bisimilar if some relation bears out its own rounds for ever,
which is not the same as unfolding them: books and codices may contain themselves.

In a plain heap this is an equivalence. Keys are scalars or texts there and no two keys of a codex
are equal, so a codex of the same size in which every entry has its like has no other entries. -/

namespace JourneyMachine

namespace Value

/-- A value that is stored inline, or a text. -/
def Simple : Value → Prop
  | ni | veracity _ | numeral _ | text _ => True
  | _ => False

/-- A value that is compared by its content. -/
def Structured : Value → Prop
  | text _ | book _ | codex _ => True
  | _ => False

end Value

namespace Heap

/-- One round of comparing, up to a relation on what is inside. -/
inductive Alike (heap : Heap) (R : Value → Value → Prop) : Value → Value → Prop
  | identical {v : Value} : ¬ v.Structured → Alike heap R v v
  | text {l r : Handle} {content : String} : heap.get? l = some (.text content) →
      heap.get? r = some (.text content) → Alike heap R (.text l) (.text r)
  | book {l r : Handle} {left right : Array Value} : heap.get? l = some (.book left) →
      heap.get? r = some (.book right) → List.Forall₂ R left.toList right.toList →
      Alike heap R (.book l) (.book r)
  | codex {l r : Handle} {left right : List (Value × Value)} : heap.get? l = some (.codex left) →
      heap.get? r = some (.codex right) → left.length = right.length →
      (∀ e ∈ left, ∃ f ∈ right, R e.1 f.1 ∧ R e.2 f.2) → Alike heap R (.codex l) (.codex r)

/-- A relation that bears out its own rounds. -/
def Bisimulation (heap : Heap) (R : Value → Value → Prop) : Prop := ∀ a b, R a b → heap.Alike R a b

/-- The greatest bisimulation. -/
def Bisimilar (heap : Heap) (a b : Value) : Prop := ∃ R, heap.Bisimulation R ∧ R a b

/-- A heap in which no comparison runs program code. No form declares a change named `==`, and so
none inherits one; no form is its own ancestor, as the search for the change would not end there.
Keys are scalars or texts, and no two of one codex are equal. -/
structure Plain (heap : Heap) : Prop where
  closed : heap.Closed
  undeclared : ∀ h f, heap.get? h = some (.form f) → ∀ k ∈ f.changes, ∀ j,
    heap.get? k = some (.journey j) → j.name ≠ "=="
  acyclic : ∀ v, ¬ Relation.TransGen heap.Parent v v
  simple : ∀ h entries, heap.get? h = some (.codex entries) → ∀ e ∈ entries, e.1.Simple
  distinct : ∀ h entries, heap.get? h = some (.codex entries) →
    entries.Pairwise fun e f => ¬ heap.Bisimilar e.1 f.1

variable {heap : Heap} {R S : Value → Value → Prop} {a b c k : Value}

section Rounds

theorem Alike.mono (alike : heap.Alike R a b) (sub : ∀ u v, R u v → S u v) : heap.Alike S a b := by
  cases alike with
  | identical bare => exact .identical bare
  | text first second => exact .text first second
  | book first second pages => exact .book first second (pages.imp sub)
  | codex first second size entries =>
    apply Alike.codex first second size
    intro e member
    obtain ⟨f, there, key, value⟩ := entries e member
    exact ⟨f, there, sub _ _ key, sub _ _ value⟩

/-- Values that refer to the same thing are alike by what refers inside them. -/
theorem Alike.refl (closed : heap.Closed) (refers : heap.Refers a) :
    heap.Alike (fun u v => u = v ∧ heap.Refers u) a a := by
  cases a with
  | text h =>
    obtain ⟨o, used, genus⟩ := (refers_text).mp refers
    cases o <;> try contradiction
    exact .text used used
  | book h =>
    obtain ⟨o, used, genus⟩ := (refers_book).mp refers
    cases o <;> try contradiction
    rename_i pages
    apply Alike.book used used
    rw [List.forall₂_same]
    intro v member
    exact ⟨rfl, closed h _ used v member⟩
  | codex h =>
    obtain ⟨o, used, genus⟩ := (refers_codex).mp refers
    cases o <;> try contradiction
    rename_i entries
    apply Alike.codex used used rfl
    intro e member
    have part : ∀ v ∈ [e.1, e.2], heap.Refers v := fun v here =>
      closed h _ used v (Object.links_entry member here)
    exact ⟨e, member, ⟨rfl, part _ (by simp)⟩, ⟨rfl, part _ (by simp)⟩⟩
  | _ => exact .identical id

theorem bisimilar_bisimulation (heap : Heap) : heap.Bisimulation heap.Bisimilar := by
  rintro a b ⟨R, bisimulation, related⟩
  apply (bisimulation a b related).mono
  intro u v here
  exact ⟨R, bisimulation, here⟩

theorem Bisimilar.alike (similar : heap.Bisimilar a b) : heap.Alike heap.Bisimilar a b :=
  bisimilar_bisimulation heap a b similar

/-- What is alike by what is bisimilar inside is bisimilar. -/
theorem Alike.bisimilar (alike : heap.Alike heap.Bisimilar a b) : heap.Bisimilar a b := by
  refine ⟨heap.Alike heap.Bisimilar, ?_, alike⟩
  intro u v here
  exact here.mono fun _ _ similar => similar.alike

end Rounds

section Simple

/-- Simple values have nothing inside. -/
theorem Alike.shallow (simple : k.Simple) (alike : heap.Alike R k a) : heap.Alike S k a := by
  cases alike with
  | identical bare => exact .identical bare
  | text first second => exact .text first second
  | book | codex => exact simple.elim

/-- Simple values that are like the same one are like each other. -/
theorem Bisimilar.meet (simple : k.Simple) (first : heap.Bisimilar k b)
    (second : heap.Bisimilar a b) : heap.Bisimilar k a := by
  cases first.alike with
  | identical bare =>
    cases second.alike with
    | identical => exact first
    | text | book | codex => exact (bare trivial).elim
  | text one two =>
    cases second.alike with
    | identical bare => exact (bare trivial).elim
    | text three four =>
      cases two.symm.trans four
      exact Alike.bisimilar (.text one three)
  | book | codex => exact simple.elim

end Simple

section Equivalence

theorem Bisimilar.refl (closed : heap.Closed) (refers : heap.Refers a) : heap.Bisimilar a a := by
  refine ⟨fun u v => u = v ∧ heap.Refers u, ?_, rfl, refers⟩
  rintro u v ⟨rfl, here⟩
  exact .refl closed here

theorem forall₂_comp {xs ys zs : List Value} (first : List.Forall₂ R xs ys)
    (second : List.Forall₂ S ys zs) : List.Forall₂ (Relation.Comp R S) xs zs := by
  induction first generalizing zs with
  | nil =>
    cases second
    exact .nil
  | @cons x y xs ys related _ ih =>
    cases second with
    | cons next rest => exact .cons ⟨y, related, next⟩ (ih rest)

theorem Bisimilar.trans (first : heap.Bisimilar a b) (second : heap.Bisimilar b c) :
    heap.Bisimilar a c := by
  refine ⟨Relation.Comp heap.Bisimilar heap.Bisimilar, ?_, b, first, second⟩
  -- Steps of the two bisimulations that meet in the middle look at the same object there.
  rintro u w ⟨v, left, right⟩
  cases left.alike with
  | identical bare =>
    cases right.alike with
    | identical => exact .identical bare
    | text | book | codex => exact (bare trivial).elim
  | text one two =>
    cases right.alike with
    | identical bare => exact (bare trivial).elim
    | text three four =>
      cases two.symm.trans three
      exact .text one four
  | book one two pages =>
    cases right.alike with
    | identical bare => exact (bare trivial).elim
    | book three four more =>
      cases two.symm.trans three
      exact .book one four (forall₂_comp pages more)
  | codex one two size entries =>
    cases right.alike with
    | identical bare => exact (bare trivial).elim
    | codex three four more others =>
      cases two.symm.trans three
      apply Alike.codex one four (size.trans more)
      intro e member
      obtain ⟨f, there, key, value⟩ := entries e member
      obtain ⟨g, here, key', value'⟩ := others f there
      exact ⟨g, here, ⟨f.1, key, key'⟩, ⟨f.2, value, value'⟩⟩

/-- No two entries of a codex have their likes in one entry, so that in a codex of the same size
every entry is the like of one. -/
theorem Plain.entries_onto (plain : heap.Plain) {l : Handle} {left right : List (Value × Value)}
    (used : heap.get? l = some (.codex left)) (size : left.length = right.length)
    (entries : ∀ e ∈ left, ∃ f ∈ right, heap.Bisimilar e.1 f.1 ∧ heap.Bisimilar e.2 f.2) :
    ∀ f ∈ right, ∃ e ∈ left, heap.Bisimilar e.1 f.1 ∧ heap.Bisimilar e.2 f.2 := by
  have places : ∀ i, ∃ j, heap.Bisimilar (left.get i).1 (right.get j).1 ∧
      heap.Bisimilar (left.get i).2 (right.get j).2 := by
    intro i
    obtain ⟨f, there, both⟩ := entries (left.get i) (List.get_mem ..)
    obtain ⟨j, rfl⟩ := List.mem_iff_get.mp there
    exact ⟨j, both⟩
  -- Keys that are apart are alike to different ones, so the map between as many places is onto.
  choose place similar using places
  have apart : ∀ i j, i < j → place i ≠ place j := by
    intro i j before same
    have key : (left.get i).1.Simple := plain.simple l left used _ (List.get_mem ..)
    have other := (similar j).1
    rw [← same] at other
    exact List.pairwise_iff_get.mp (plain.distinct l left used) i j before
      ((similar i).1.meet key other)
  have injective : Function.Injective place := by
    intro i j same
    rcases lt_trichotomy i j with before | equal | after
    · exact (apart i j before same).elim
    · exact equal
    · exact (apart j i after same.symm).elim
  have onto : Function.Surjective place := ((Fintype.bijective_iff_injective_and_card place).mpr
    ⟨injective, by simpa using size⟩).surjective
  intro f member
  obtain ⟨j, rfl⟩ := List.mem_iff_get.mp member
  obtain ⟨i, rfl⟩ := onto j
  exact ⟨left.get i, List.get_mem .., similar i⟩

theorem Bisimilar.symm (plain : heap.Plain) (similar : heap.Bisimilar a b) :
    heap.Bisimilar b a := by
  refine ⟨flip heap.Bisimilar, ?_, similar⟩
  intro v u related
  cases Bisimilar.alike related with
  | identical bare => exact .identical bare
  | text first second => exact .text second first
  | book first second pages => exact .book second first (List.Forall₂.flip pages)
  | codex first second size entries =>
    exact .codex second first size.symm (plain.entries_onto first size entries)

end Equivalence

section Progress

/-- Related by rounds that may also end in what is assumed. -/
def Progress (heap : Heap) (C : Value → Value → Prop) (a b : Value) : Prop :=
  ∃ S : Value → Value → Prop, (∀ u v, S u v → heap.Alike (fun x y => S x y ∨ C x y) u v) ∧ S a b

variable {C D : Value → Value → Prop}

theorem Progress.alike (progress : heap.Progress C a b) :
    heap.Alike (fun u v => heap.Progress C u v ∨ C u v) a b := by
  obtain ⟨S, rounds, related⟩ := progress
  apply (rounds a b related).mono
  rintro u v (here | assumed)
  · exact .inl ⟨S, rounds, here⟩
  · exact .inr assumed

/-- A pair whose round was borne out under the assumption that it is related is related without. -/
theorem Progress.discharge (alike : heap.Alike (fun u v => heap.Progress D u v ∨ D u v) a b)
    (assumed : ∀ u v, D u v → C u v ∨ (u = a ∧ v = b)) : heap.Progress C a b := by
  refine ⟨fun u v => heap.Progress D u v ∨ (u = a ∧ v = b), ?_, .inr ⟨rfl, rfl⟩⟩
  have weaker : ∀ u v, heap.Progress D u v ∨ D u v →
      (heap.Progress D u v ∨ (u = a ∧ v = b)) ∨ C u v := by
    rintro u v (progress | given)
    · exact .inl (.inl progress)
    · rcases assumed u v given with kept | this
      · exact .inr kept
      · exact .inl (.inr this)
  rintro u v (progress | ⟨rfl, rfl⟩)
  · exact progress.alike.mono weaker
  · exact alike.mono weaker

/-- Where only identity is assumed, what is related is bisimilar. -/
theorem Progress.bisimilar (closed : heap.Closed) (progress : heap.Progress C a b)
    (identity : ∀ u v, C u v → u = v ∧ heap.Refers u) : heap.Bisimilar a b := by
  refine ⟨fun u v => heap.Progress C u v ∨ (u = v ∧ heap.Refers u), ?_, .inl progress⟩
  rintro u v (here | ⟨rfl, refers⟩)
  · apply here.alike.mono
    rintro x y (inside | assumed)
    · exact .inl inside
    · exact .inr (identity x y assumed)
  · exact (Alike.refl closed refers).mono fun _ _ => .inr

end Progress

end Heap

end JourneyMachine
