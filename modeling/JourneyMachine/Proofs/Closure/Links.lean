import JourneyMachine.Machine.Basic
import JourneyMachine.Proofs.Heap.Allocation

/-! Closed heaps. A handle is stored with the genus it announces: in the tag of a value, or in the
field that holds it. `links` gives what an object or a machine stores as values, so that one notion
of reference covers both. A collection starts from the handles of these values, and so keeps a
closed heap closed. -/

namespace JourneyMachine

theorem mem_modify {α : Type} {l : List α} {i : Nat} {f : α → α} {a : α}
    (member : a ∈ l.modify i f) : a ∈ l ∨ ∃ b ∈ l, a = f b := by
  obtain ⟨k, inside, rfl⟩ := List.mem_iff_getElem.mp member
  rw [List.getElem_modify]
  split
  · exact .inr ⟨_, List.getElem_mem (by simpa using inside), rfl⟩
  · exact .inl (List.getElem_mem _)

namespace Form

def links (f : Form) : List Value :=
  f.essences.flatMap (fun e => e.value :: e.guard.toList) ++
    f.matter.flatMap (fun m => m.guard.toList) ++
    f.recollections.map .journey ++ f.changes.map .journey ++ f.imitate.toList.map .journey ++
    f.parents.map .form

theorem handles_optional (guard : Option Value) :
    guard.toList.filterMap Value.handle? = (guard.bind Value.handle?).toList := by
  cases guard with
  | none => rfl
  | some v => cases found : v.handle? <;> simp [found]

theorem handles_essence (e : Essence) :
    (e.value :: e.guard.toList).filterMap Value.handle? =
      e.value.handle?.toList ++ (e.guard.bind Value.handle?).toList := by
  rw [List.filterMap_cons, handles_optional]
  cases e.value.handle? <;> rfl

theorem children_eq (f : Form) : f.children = f.links.filterMap Value.handle? := by
  have journeys : Value.handle? ∘ Value.journey = some := rfl
  have forms : Value.handle? ∘ Value.form = some := rfl
  simp only [children, links, List.filterMap_append, List.filterMap_flatMap, List.filterMap_map,
    journeys, forms, List.filterMap_some, handles_optional, handles_essence]

end Form

namespace Object

def links : Object → List Value
  | text _ => []
  | book pages => pages.toList
  | codex entries => entries.flatMap fun (k, v) => [k, v]
  | form f => f.links
  | imitation i => .form i.form :: i.matter.toList
  | journey j => j.patterns.flatMap fun p => p.block.constants.toList
  | other o => o.values

theorem children_eq (o : Object) : o.children = o.links.filterMap Value.handle? := by
  cases o with
  | text => rfl
  | book => rfl
  | codex entries =>
    simp only [children, links, List.filterMap_flatMap]
    congr 1
    funext entry
    obtain ⟨k, v⟩ := entry
    cases key : k.handle? <;> cases value : v.handle? <;> simp [key, value]
  | form f => exact f.children_eq
  | imitation => simp [children, links, Value.handle?]
  | journey => simp [children, links, List.filterMap_flatMap]
  | other => rfl

/-- The key and the value of an entry are inside its codex. -/
theorem links_entry {entries : List (Value × Value)} {entry : Value × Value} {v : Value}
    (member : entry ∈ entries) (part : v ∈ [entry.1, entry.2]) : v ∈ (codex entries).links :=
  List.mem_flatMap.mpr ⟨entry, member, part⟩

end Object

namespace Heap

/-- The slot is in use and its object has that genus. -/
def Holds (heap : Heap) (genus : Genus) (h : Handle) : Prop :=
  ∃ o, heap.get? h = some o ∧ o.genus = genus

/-- A value refers to what its tag announces; scalars refer to nothing. -/
def Refers (heap : Heap) (v : Value) : Prop :=
  ∀ h, v.handle? = some h → heap.Holds v.genus h

/-- Everything that an object in use holds refers to what it announces. -/
def Closed (heap : Heap) : Prop :=
  ∀ h o, heap.get? h = some o → ∀ v ∈ o.links, heap.Refers v

section Values

variable {heap : Heap} {h : Handle}

@[simp] theorem refers_ni : heap.Refers .ni := by simp [Refers, Value.handle?]

@[simp] theorem refers_veracity (b : Bool) : heap.Refers (.veracity b) := by
  simp [Refers, Value.handle?]

@[simp] theorem refers_numeral (n : Int64) : heap.Refers (.numeral n) := by
  simp [Refers, Value.handle?]

@[simp] theorem refers_text : heap.Refers (.text h) ↔ heap.Holds .text h := by
  simp [Refers, Value.handle?, Value.genus]

@[simp] theorem refers_form : heap.Refers (.form h) ↔ heap.Holds .form h := by
  simp [Refers, Value.handle?, Value.genus]

@[simp] theorem refers_imitation : heap.Refers (.imitation h) ↔ heap.Holds .imitation h := by
  simp [Refers, Value.handle?, Value.genus]

@[simp] theorem refers_journey : heap.Refers (.journey h) ↔ heap.Holds .journey h := by
  simp [Refers, Value.handle?, Value.genus]

@[simp] theorem refers_book : heap.Refers (.book h) ↔ heap.Holds .book h := by
  simp [Refers, Value.handle?, Value.genus]

@[simp] theorem refers_codex : heap.Refers (.codex h) ↔ heap.Holds .codex h := by
  simp [Refers, Value.handle?, Value.genus]

@[simp] theorem refers_other : heap.Refers (.other h) ↔ heap.Holds .other h := by
  simp [Refers, Value.handle?, Value.genus]

/-- A reference depends on the object of its own slot only. -/
theorem Refers.of_get? {after : Heap} {v : Value} (refers : heap.Refers v)
    (same : ∀ h, v.handle? = some h → after.get? h = heap.get? h) : after.Refers v := by
  intro h found
  obtain ⟨o, used, genus⟩ := refers h found
  exact ⟨o, (same h found).trans used, genus⟩

theorem Refers.reachable {roots : List Value} {v : Value} (refers : heap.Refers v)
    (member : v ∈ roots) (found : v.handle? = some h) :
    heap.Reachable (roots.filterMap Value.handle?) h := by
  obtain ⟨o, used, _⟩ := refers h found
  exact .root (List.mem_filterMap.mpr ⟨v, member, found⟩) used

/-- A value that refers is known by the object in its slot. -/
theorem Refers.unique {u v : Value} {o : Object} (first : heap.Refers u) (second : heap.Refers v)
    (left : u.handle? = some h) (right : v.handle? = some h) (used : heap.get? h = some o) :
    u = v := by
  obtain ⟨one, found, genus⟩ := first h left
  obtain ⟨two, again, same⟩ := second h right
  cases found.symm.trans used
  cases again.symm.trans used
  have tags : u.genus = v.genus := genus.symm.trans same
  cases u <;> cases v <;> simp_all [Value.genus, Value.handle?]

/-- In a closed heap what is reachable leads on to everything it holds. -/
theorem Closed.reachable {roots : List Handle} {k : Handle} {o : Object} {v : Value}
    (closed : heap.Closed) (reachable : heap.Reachable roots k) (used : heap.get? k = some o)
    (member : v ∈ o.links) (found : v.handle? = some h) : heap.Reachable roots h := by
  obtain ⟨p, there, _⟩ := closed k o used v member h found
  refine .child reachable used ?_ there
  rw [o.children_eq]
  exact List.mem_filterMap.mpr ⟨v, member, found⟩

end Values

section Collection

variable {heap : Heap} {roots : List Handle}

theorem get?_collect (tidy : heap.Tidy) {h : Handle} (reachable : heap.Reachable roots h) :
    (heap.collect roots).2.get? h = heap.get? h := by
  simp only [get?, Arena.get?_eq_map, collect_kept tidy reachable]

theorem get?_of_collect (tidy : heap.Tidy) {h : Handle} {o : Object}
    (used : (heap.collect roots).2.get? h = some o) :
    heap.Reachable roots h ∧ heap.get? h = some o := by
  by_cases reachable : heap.Reachable roots h
  · exact ⟨reachable, by rw [← get?_collect tidy reachable, used]⟩
  · rw [(get?_eq_none).mpr (collect_freed tidy reachable)] at used
    contradiction

theorem Closed.collect (closed : heap.Closed) (tidy : heap.Tidy) :
    (heap.collect roots).2.Closed := by
  intro k o used v member
  obtain ⟨reachable, before⟩ := get?_of_collect tidy used
  exact (closed k o before v member).of_get? fun h found =>
    get?_collect tidy (closed.reachable reachable before member found)

theorem Refers.collect {values : List Value} {v : Value} (refers : heap.Refers v)
    (tidy : heap.Tidy) (member : v ∈ values)
    (sub : ∀ h ∈ values.filterMap Value.handle?, h ∈ roots) :
    (heap.collect roots).2.Refers v :=
  refers.of_get? fun _ found =>
    get?_collect tidy ((refers.reachable member found).mono sub)

end Collection

section Filling

variable {heap : Heap} {h : Handle} {object : Object}

theorem get?_filled (first : heap.FirstFree h) (k : Handle) :
    (heap.filled h object).get? k = if k = h then some object else heap.get? k := by
  simp only [get?, Arena.get?_eq_map, cell?_filled first.1]
  split <;> rfl

theorem get?_filled_of_some (first : heap.FirstFree h) {k : Handle} {o : Object}
    (used : heap.get? k = some o) : (heap.filled h object).get? k = some o := by
  rw [get?_filled first, if_neg, used]
  rintro rfl
  rw [first.2.1] at used
  contradiction

theorem Refers.filled {v : Value} (refers : heap.Refers v) (first : heap.FirstFree h) :
    (heap.filled h object).Refers v := by
  intro k found
  obtain ⟨o, used, genus⟩ := refers k found
  exact ⟨o, get?_filled_of_some first used, genus⟩

theorem Closed.filled (closed : heap.Closed) (first : heap.FirstFree h)
    (holds : ∀ v ∈ object.links, heap.Refers v) : (heap.filled h object).Closed := by
  intro k o used v member
  rw [get?_filled first] at used
  split at used
  · cases Option.some.inj used
    exact (holds v member).filled first
  · exact (closed k o used v member).filled first

end Filling

section Editing

variable {heap : Heap} {h : Handle} {f : Object → Object}

theorem get?_modify (heap : Heap) (h k : Handle) (f : Object → Object) :
    (heap.modify h f).get? k = if k = h then (heap.get? h).map f else heap.get? k := by
  simp only [get?, Arena.get?_eq_map, cell?_modify]
  split
  · cases heap.arena.cell? h <;> rfl
  · rfl

@[simp] theorem capacity_modify : (heap.modify h f).capacity = heap.capacity := by
  simp [modify, capacity, Arena.capacity, Arena.modify]

theorem modify_modify {g : Object → Object} :
    (heap.modify h f).modify h g = heap.modify h (g ∘ f) := by
  have slots : (heap.arena.slots.modify h.slot (·.edit f)).modify h.slot (·.edit g) =
      heap.arena.slots.modify h.slot (·.edit (g ∘ f)) := by
    apply Array.toList_inj.mp
    simp [Array.toList_modify, List.modify_modify_eq, Function.comp_def, Slot.edit]
  simp only [modify, Arena.modify, slots]

theorem modify_congr {g : Object → Object}
    (same : ∀ o, heap.get? h = some o → f o = g o) : heap.modify h f = heap.modify h g := by
  have slots : heap.arena.slots.modify h.slot (·.edit f) =
      heap.arena.slots.modify h.slot (·.edit g) := by
    apply Array.ext_getElem?
    intro i
    simp only [Array.getElem?_modify]
    split
    · rename_i here
      cases there : heap.arena.slots[i]? with
      | none => rfl
      | some slot =>
        have objects : slot.object.map f = slot.object.map g :=
          Option.map_congr fun o used => same o (by simp [get?, Arena.get?, here, there, used])
        simp [Slot.edit, objects]
    · rfl
  simp only [modify, Arena.modify, slots]

theorem modify_id : heap.modify h id = heap := by
  have slots : heap.arena.slots.modify h.slot (·.edit id) = heap.arena.slots := by
    apply Array.ext_getElem?
    intro i
    simp [Array.getElem?_modify, Slot.edit]
  simp only [modify, Arena.modify, slots]

/-- An object that is put back leaves the heap as it was. -/
theorem modify_back (same : ∀ o, heap.get? h = some o → f o = o) : heap.modify h f = heap :=
  (modify_congr same).trans modify_id

theorem Refers.modify {v : Value} (refers : heap.Refers v)
    (genus : ∀ o, heap.get? h = some o → (f o).genus = o.genus) : (heap.modify h f).Refers v := by
  intro k found
  obtain ⟨o, used, announced⟩ := refers k found
  by_cases same : k = h
  · subst same
    exact ⟨f o, by rw [get?_modify, if_pos rfl, used]; rfl, (genus o used).trans announced⟩
  · exact ⟨o, by rw [get?_modify, if_neg same, used], announced⟩

theorem Closed.modify (closed : heap.Closed)
    (genus : ∀ o, heap.get? h = some o → (f o).genus = o.genus)
    (holds : ∀ o, heap.get? h = some o → ∀ v ∈ (f o).links, heap.Refers v) :
    (heap.modify h f).Closed := by
  intro k o used v member
  rw [get?_modify] at used
  split at used
  · obtain ⟨before, there, rfl⟩ := Option.map_eq_some_iff.mp used
    exact (holds before there v member).modify genus
  · exact (closed k o used v member).modify genus

end Editing

end Heap

namespace Frame

def links (f : Frame) : List Value := .journey f.journey :: f.registers.toList

end Frame

namespace Machine

/-- What computations under way hold: the pins and the frames. -/
def held (m : Machine) : List Value := m.pinned ++ m.frames.flatMap Frame.links

def links (m : Machine) : List Value :=
  m.program.globals.toList.map (·.2) ++ m.program.main.toList.map .journey ++
    m.frames.flatMap Frame.links ++ [m.handlers.exception] ++ m.pinned ++
    [.form m.builtins.exception, .form m.builtins.ioError, .imitation m.builtins.heapExhausted]

/-- What a machine holds from its start on: the entry and the built-ins. -/
def fixed (m : Machine) : List Value :=
  m.program.main.toList.map .journey ++
    [.form m.builtins.exception, .form m.builtins.ioError, .imitation m.builtins.heapExhausted]

/-- Every handle stored in the machine or in an object in use refers to an object of the genus it
announces, and the pattern of a frame is one of its journey's. -/
structure Closed (m : Machine) : Prop where
  tidy : m.heap.Tidy
  heap : m.heap.Closed
  links : ∀ v ∈ m.links, m.heap.Refers v
  patterns : ∀ f ∈ m.frames, ∃ j, m.heap.get? f.journey = some (.journey j) ∧ f.pattern ∈ j.patterns

/-- A collection starts from everything the machine holds. -/
theorem roots_eq (m : Machine) : m.roots = m.links.filterMap Value.handle? := by
  have exception : [m.handlers.exception].filterMap Value.handle? =
      m.handlers.exception.handle?.toList := by
    cases found : m.handlers.exception.handle? <;> simp [found]
  have journeys : Value.handle? ∘ Value.journey = some := rfl
  have globals : Value.handle? ∘ (fun g : String × Value => g.2) = fun g => g.2.handle? := rfl
  have frames : (fun f : Frame => f.links.filterMap Value.handle?) =
      fun f => f.journey :: f.registers.toList.filterMap Value.handle? := rfl
  have builtins : [Value.form m.builtins.exception, .form m.builtins.ioError,
      .imitation m.builtins.heapExhausted].filterMap Value.handle? =
        [m.builtins.exception, m.builtins.ioError, m.builtins.heapExhausted] := rfl
  simp only [links, List.filterMap_append, exception, builtins, List.filterMap_map, journeys,
    globals, List.filterMap_some, List.filterMap_flatMap, frames]
  rfl

theorem held_sub_links {m : Machine} {v : Value} (member : v ∈ m.held) : v ∈ m.links := by
  simp only [held, links, List.mem_append] at member ⊢
  tauto

theorem fixed_sub_links {m : Machine} {v : Value} (member : v ∈ m.fixed) : v ∈ m.links := by
  simp only [fixed, links, List.mem_append] at member ⊢
  tauto

theorem Closed.held {m : Machine} (closed : m.Closed) {v : Value} (member : v ∈ m.held) :
    m.heap.Refers v :=
  closed.links v (held_sub_links member)

/-- A machine that holds nothing new but what refers, on the same heap. -/
theorem Closed.of_links {m m' : Machine} (closed : m.Closed) (heap : m'.heap = m.heap)
    (links : ∀ v ∈ m'.links, v ∈ m.links ∨ m.heap.Refers v)
    (frames : ∀ f ∈ m'.frames, f ∈ m.frames ∨
      ∃ j, m.heap.get? f.journey = some (.journey j) ∧ f.pattern ∈ j.patterns) : m'.Closed where
  tidy := heap ▸ closed.tidy
  heap := heap ▸ closed.heap
  links v member := by
    rw [heap]
    rcases links v member with old | refers
    · exact closed.links v old
    · exact refers
  patterns f member := by
    rw [heap]
    rcases frames f member with old | pattern
    · exact closed.patterns f old
    · exact pattern

end Machine

end JourneyMachine
