import JourneyMachine.Proofs.Containers.Histories
import JourneyMachine.Proofs.Containers.Room

namespace JourneyMachine

def Heap.IsText (heap : Heap) (v : Value) (content : String) : Prop :=
  ∃ t, v = .text t ∧ heap.get? t = some (.text content)

/-- A book whose pages are texts of these contents, in order. -/
def Heap.Spells (heap : Heap) (b : Handle) (contents : List String) : Prop :=
  ∃ pages, heap.get? b = some (.book pages) ∧ List.Forall₂ heap.IsText pages.toList contents

namespace Machine

variable {m m₁ m₂ : Machine} {b : Handle} {contents : List String}

/-- A rooted book has got more pages, and everything else that the roots lead to is as it was. -/
structure Extends (m : Machine) (b : Handle) (m' : Machine) : Prop where
  tidy : m'.heap.Tidy
  outside : m' = { m with heap := m'.heap }
  rooted : b ∈ m.roots
  others : ∀ k, m.heap.Reachable m.roots k → k ≠ b → m'.heap.get? k = m.heap.get? k
  pages : ∃ old more, m.heap.get? b = some (.book old) ∧ m'.heap.get? b = some (.book (old ++ more))

theorem Extends.roots_eq (extended : m.Extends b m₁) : m₁.roots = m.roots := by
  rw [extended.outside]
  rfl

theorem Extends.reachable (extended : m.Extends b m₁) {k : Handle}
    (reachable : m.heap.Reachable m.roots k) : m₁.heap.Reachable m₁.roots k := by
  obtain ⟨old, more, before, after⟩ := extended.pages
  have still : ∀ {k o}, m.heap.Reachable m.roots k → m.heap.get? k = some o →
      ∃ p, m₁.heap.get? k = some p ∧ ∀ c ∈ o.children, c ∈ p.children := by
    intro k o reachable used
    by_cases same : k = b
    · subst same
      cases before.symm.trans used
      refine ⟨_, after, fun c member => ?_⟩
      simp only [Object.children, Array.toList_append, List.filterMap_append]
      exact List.mem_append_left _ member
    · exact ⟨o, (extended.others k reachable same).trans used, fun _ => id⟩
  rw [extended.roots_eq]
  induction reachable with
  | root member used =>
    obtain ⟨p, there, _⟩ := still (.root member used) used
    exact .root member there
  | child reachable parent member used ih =>
    obtain ⟨p, holder, inside⟩ := still reachable parent
    obtain ⟨q, there, _⟩ := still (.child reachable parent member used) used
    exact .child ih holder (inside _ member) there

theorem Extends.trans (first : m.Extends b m₁) (second : m₁.Extends b m₂) : m.Extends b m₂ where
  tidy := second.tidy
  outside := by rw [second.outside, first.outside]
  rooted := first.rooted
  others k reachable other :=
    (second.others k (first.reachable reachable) other).trans (first.others k reachable other)
  pages := by
    obtain ⟨old, more, before, between⟩ := first.pages
    obtain ⟨mid, rest, same, after⟩ := second.pages
    cases between.symm.trans same
    exact ⟨old, more ++ rest, before, by rw [after, Array.append_assoc]⟩

/-- What is on the pages of a rooted book is as it was. -/
theorem Extends.written (extended : m.Extends b m₁) {pages : Array Value}
    (used : m.heap.get? b = some (.book pages))
    (written : List.Forall₂ m.heap.IsText pages.toList contents) :
    List.Forall₂ m₁.heap.IsText pages.toList contents := by
  rw [List.forall₂_iff_get] at written ⊢
  refine ⟨written.1, fun i left right => ?_⟩
  obtain ⟨t, same, text⟩ := written.2 i left right
  refine ⟨t, same, (extended.others t ?_ ?_).trans text⟩
  · refine .child (.root extended.rooted used) used ?_ text
    rw [Object.children_eq]
    exact List.mem_filterMap.mpr ⟨_, List.get_mem pages.toList ⟨i, left⟩, by rw [same]; rfl⟩
  · rintro rfl
    cases used.symm.trans text

end Machine

namespace Run

variable {env : Env} {m : Machine} {b t : Handle} {pages : Array Value} {done texts : List String}
  {n : Nat}

/-- A text is made and put on a new page. -/
theorem page_extends (tidy : m.heap.Tidy) (rooted : b ∈ m.roots)
    (used : m.heap.get? b = some (.book pages)) (room : m.HasRoom (n + 1)) (content : String)
    (env : Env) :
    ∃ t m₁ m₂, newText content env m = .ok (.text t) m₁ ∧
      editBook b (·.push (.text t)) env m₁ = .ok () m₂ ∧ m.Extends b m₂ ∧
      m₂.heap.get? b = some (.book (pages.push (.text t))) ∧
      m₂.heap.get? t = some (.text content) ∧ m₂.HasRoom n := by
  obtain ⟨t, m₁, made, added⟩ : ∃ t m₁, newText content env m = .ok (.text t) m₁ ∧ _ :=
    newText_adds env tidy (room.mono (by omega)) content
  have reachable : m.heap.Reachable m.roots b := .root rooted used
  have retains := added.retains.mono fun _ => List.mem_append_left _
  have there : m₁.heap.get? b = some (.book pages) := (retains.kept b reachable).trans used
  have other : t ≠ b := (added.fresh_of_reachable reachable).symm
  obtain ⟨m₂, stored, replaced⟩ : ∃ m₂, editBook b (·.push (.text t)) env m₁ = .ok () m₂ ∧ _ :=
    editBook_ok there
  have own : m₂.heap.get? t = some (.text content) :=
    (replaced.others t other).trans added.object
  have outside : m₂ = { m with heap := m₂.heap } := by rw [replaced.outside, added.outside]
  refine ⟨t, m₁, m₂, made, stored, ?_, replaced.object, own, ?_⟩
  · refine ⟨replaced.tidy retains.tidy, outside, rooted, fun k reachable other => ?_, ?_⟩
    · exact (replaced.others k other).trans (retains.kept k reachable)
    · exact ⟨pages, #[.text t], used, by rw [replaced.object, Array.push_eq_append]⟩
  · exact room.paged added (by simp [Object.children]) used other rfl replaced

/-- Texts are put on new pages one after the other. -/
theorem pushTexts_extends (tidy : m.heap.Tidy) (rooted : b ∈ m.roots)
    (used : m.heap.get? b = some (.book pages))
    (written : List.Forall₂ m.heap.IsText pages.toList done) (room : m.HasRoom (texts.length + n))
    (env : Env) :
    ∃ m', pushTexts b texts env m = .ok () m' ∧ m.Extends b m' ∧
      m'.heap.Spells b (done ++ texts) ∧ m'.HasRoom n := by
  induction texts generalizing done pages m with
  | nil =>
    refine ⟨m, rfl, ⟨tidy, rfl, rooted, fun _ _ _ => rfl, pages, #[], used, ?_⟩, ?_, ?_⟩
    · rw [used, Array.append_empty]
    · rw [List.append_nil]
      exact ⟨pages, used, written⟩
    · exact room.mono (by simp)
  | cons content texts ih =>
    rw [List.length_cons, Nat.add_right_comm] at room
    obtain ⟨t, m₁, m₂, made, stored, extended, after, own, left⟩ :=
      page_extends tidy rooted used room content env
    have spelled :
        List.Forall₂ m₂.heap.IsText (pages.push (.text t)).toList (done ++ [content]) := by
      rw [Array.toList_push]
      exact List.rel_append (extended.written used written) (.cons ⟨t, rfl, own⟩ .nil)
    obtain ⟨m', pushed, more, spells, rest⟩ :=
      ih extended.tidy (extended.roots_eq ▸ rooted) after spelled left
    rw [List.append_assoc] at spells
    exact ⟨m', (bind_ok made).trans ((bind_ok stored).trans pushed), extended.trans more, spells,
      rest⟩

/-- The book of a text, where there is room for a book and for every character. -/
theorem toBook_spells {content : String} (tidy : m.heap.Tidy)
    (used : m.heap.get? t = some (.text content)) (room : m.HasRoom (content.length + 1 + n))
    (env : Env) :
    ∃ b m', toBook (.text t) env m = .ok (.book b) m' ∧
      m'.heap.Spells b (content.toList.map String.singleton) ∧
      m.heap.Retains m.roots m'.heap ∧ m' = { m with heap := m'.heap } ∧ m'.HasRoom n := by
  obtain ⟨b, m₁, made, added⟩ :=
    allocate_adds env tidy (room.mono (by omega)) (o := .book #[]) rfl
  have retains := added.retains.mono fun _ => List.mem_append_left _
  have pinned : b ∈ (m₁.pin [.book b]).roots := mem_roots_pin.mpr (.inr ⟨.book b, by simp, rfl⟩)
  have start : (m₁.pin [.book b]).HasRoom ((content.toList.map String.singleton).length + n) := by
    have left : m.HasRoom ((content.toList.map String.singleton).length + n + 1) :=
      room.mono (by simp only [List.length_map, String.length_toList]; omega)
    refine left.allocated added (by simp [Object.children]) rfl fun k member => ?_
    rw [mem_roots_pin, added.roots_eq] at member
    rcases member with old | ⟨w, part, found⟩
    · exact .inr (.root old)
    · cases List.mem_singleton.mp part
      exact .inl (Option.some.inj found).symm
  obtain ⟨m₂, pushed, extended, spells, left⟩ :=
    pushTexts_extends (m := m₁.pin [.book b]) retains.tidy pinned added.object .nil start env
  have begun : toBook (.text t) env m = withPinned [.book b] (do
      pushTexts b (content.toList.map String.singleton)
      return .book b) env m₁ := (bind_ok (read_text used)).trans (bind_ok made)
  -- Unpinning the book gives the machine from before, with another heap.
  have released : m₂.unpin m₁.pinned.length = { m with heap := m₂.heap } := by
    have alone : ({ m₁ with heap := m₂.heap } : Machine) = { m with heap := m₂.heap } := by
      rw [added.outside]
    rw [extended.outside, ← alone]
    exact Machine.unpin_pin { m₁ with heap := m₂.heap } [.book b]
  refine ⟨b, m₂.unpin m₁.pinned.length, ?_, spells, ⟨extended.tidy, fun k reachable => ?_⟩, ?_, ?_⟩
  · rw [begun]
    exact withPinned_eq_ok.mpr ⟨m₂, bind_ok pushed, rfl⟩
  · have still : (m₁.pin [.book b]).heap.Reachable (m₁.pin [.book b]).roots k := by
      have later := retains.reachable reachable
      rw [← added.roots_eq] at later
      exact later.mono roots_pin
    exact (extended.others k still (added.fresh_of_reachable reachable)).trans
      (retains.kept k reachable)
  · rw [released]
  · refine left.of_reachable rfl fun k reachable => reachable.mono fun c member => ?_
    simp only [Machine.roots, Machine.unpin, List.mem_append, List.mem_filterMap] at member ⊢
    have older : ∀ v ∈ oldest m₁.pinned.length m₂.pinned, v ∈ m₂.pinned := fun _ =>
      List.mem_of_mem_drop
    grind

end Run

end JourneyMachine
