import JourneyMachine.Proofs.Closure.Primitives
import JourneyMachine.Proofs.Image.Rooting

namespace JourneyMachine.Image

open Machine (Rooted Spares)
open Run

variable {m₀ m : Machine} {env : Env} {base more : List Handle} {table : Placed}
  {forms journeys : Nat}

section Objects

theorem allocate_ok {object : Object} {h : Handle} {heap : Heap}
    (done : m.heap.allocate object m.roots = (.ok h, heap)) :
    allocate object env m = .ok h { m with heap } := by
  change m.heap.allocate object ({ m with heap := .empty 0 } : Machine).roots = _ at done
  simp only [allocate, done]

theorem allocate_error {object rejected : Object} {heap : Heap}
    (done : m.heap.allocate object m.roots = (.error rejected, heap)) :
    allocate object env m = .error .thrown
      { m with heap, handlers := m.handlers.throw (.imitation m.builtins.heapExhausted) } := by
  change m.heap.allocate object ({ m with heap := .empty 0 } : Machine).roots = _ at done
  simp only [allocate, done, raise]

theorem object_pin (object : Object) (h : Handle) :
    ∃ v, Value.ofHandle? object.genus h = some v ∧ v.handle? = some h := by
  cases object <;> exact ⟨_, rfl, rfl⟩

/-- An object without children is placed if there is room. -/
theorem builds_place (edits : List Handle) {object : Object} (childless : object.children = []) :
    Builds m₀ env edits True 1 (place object) base m
      fun h m' new => new = [h] ∧ m'.heap.get? h = some object := by
  intro rooted
  have contract := Heap.allocate_meets rooted.tidy object m.roots
  cases same : m.heap.allocate object m.roots with
  | mk result heap =>
    rw [same] at contract
    -- There is nothing to keep for the object itself, as it holds on to nothing.
    have kept := contract.kept
    have rejects := contract.rejects
    rw [childless, List.append_nil] at kept rejects
    cases result with
    | ok h =>
      obtain ⟨v, pin, handle⟩ := object_pin object h
      have done : place object env m = .ok h { m with heap, pinned := v :: m.pinned } := by
        unfold place
        rw [bind_ok (allocate_ok same)]
        simp only [pin]
        rfl
      rw [done]
      refine ⟨trivial, [h], rfl, rooted.place childless handle same, ⟨rfl, ?_⟩, rfl,
        (contract.placed h rfl).2.1⟩
      exact fun k member _ => kept k (rooted.reachable_iff.mpr (.inr member))
    | error rejected =>
      have failed : place object env m = .error .thrown _ := bind_error (allocate_error same)
      have full := rooted.full (rejects.mp ⟨rejected, rfl⟩)
      rw [failed]
      refine ⟨nofun, rooted.pinned, fun both => ?_⟩
      omega

/-- An object that was placed is read and then replaced. -/
theorem builds_replace {α : Type} {look : Run α} {a : α} {h : Handle} {f : Object → Object}
    {o : Object} (reads : look env m = .ok a m) (there : h ∈ base) (used : m.heap.get? h = some o)
    (genus : (f o).genus = o.genus) (holds : ∀ k ∈ (f o).children, k ∈ m₀.roots ++ base) :
    Builds m₀ env [h] True 0 (do discard look; update h f) base m
      fun _ m' new => new = [] ∧ m'.heap.get? h = some (f o) := by
  intro rooted
  have looked : discard look env m = .ok () m :=
    bind_ok (k := fun _ => pure ()) reads
  have done : (do discard look; update h f) env m =
      .ok () { m with heap := m.heap.modify h f } := bind_ok looked
  rw [done]
  refine ⟨trivial, [], rfl, ?_, ⟨rfl, fun k _ other => ?_⟩, rfl, ?_⟩
  · rw [List.append_nil]
    exact rooted.edit there used genus fun k member => List.mem_append.mp (holds k member)
  · have apart : k ≠ h := by simpa using other
    rw [Heap.get?_modify, if_neg apart]
  · rw [Heap.get?_modify, if_pos rfl, used, Option.map_some]

theorem reads {α : Type} {f : Heap → Except Fault α} {a : α} (found : f m.heap = .ok a) :
    onHeap f env m = .ok a m := (onHeap_eq_ok).mpr ⟨found, rfl⟩

/-- A value is appended to a book. -/
theorem builds_push {target : Handle} {values : Array Value} {v : Value} (there : target ∈ base)
    (used : m.heap.get? target = some (.book values))
    (inner : ∀ k ∈ (Object.book values).children, k ∈ m₀.roots ++ base)
    (holds : ∀ k ∈ v.handle?.toList, k ∈ m₀.roots ++ base) :
    Builds m₀ env [target] True 0 (editBook target (·.push v)) base m
      fun _ m' new => new = [] ∧ m'.heap.get? target = some (.book (values.push v)) := by
  have looked : m.heap.book target = .ok values := Heap.read_some used rfl
  refine builds_replace (reads looked) there used rfl fun k member => ?_
  simp only [Object.children, Array.toList_push, List.mem_filterMap, List.mem_append,
    List.mem_singleton] at member
  obtain ⟨w, before | rfl, handle⟩ := member
  · exact inner k (List.mem_filterMap.mpr ⟨w, before, handle⟩)
  · exact holds k (Option.mem_toList.mpr handle)

end Objects

section Constants

theorem Placed.journey_eq_ok {i : UInt32} {h : Handle} :
    table.journey i = .ok h ↔ table.journeys[i.toNat]? = some h := by
  unfold Placed.journey
  split <;> simp_all

theorem Placed.form_eq_ok {i : UInt32} {h : Handle} :
    table.form i = .ok h ↔ table.forms[i.toNat]? = some h := by
  unfold Placed.form
  split <;> simp_all

/-- There are so many forms and journeys for indices to stand for, all among these objects. -/
structure Placed.Inside (table : Placed) (forms journeys : Nat) (base : List Handle) : Prop where
  forms : table.forms.size = forms
  journeys : table.journeys.size = journeys
  among : ∀ h ∈ table.forms.toList ++ table.journeys.toList, h ∈ base

theorem Placed.Inside.append (inside : table.Inside forms journeys base) :
    table.Inside forms journeys (base ++ more) :=
  { inside with among := fun h member => List.mem_append_left more (inside.among h member) }

theorem anchored {handles own : List Handle}
    (refers : ∀ h ∈ handles, h ∈ own ∨ h ∈ m₀.roots ++ base) :
    ∀ h ∈ handles, h ∈ m₀.roots ++ (base ++ own) := by
  intro h member
  rw [← List.append_assoc]
  rcases refers h member with here | rest
  · exact List.mem_append_right _ here
  · exact List.mem_append_left own rest

theorem Denotes.refers {heap : Heap} {c : Constant} {v : Value} {own : List Handle}
    (denotes : Denotes heap table m₀.builtins c v own) (inside : table.Inside forms journeys base) :
    ∀ h ∈ v.handle?.toList, h ∈ own ∨ h ∈ m₀.roots ++ base := by
  cases denotes with
  | ni | veracity | numeral => simp [Value.handle?]
  | text | book => simp [Value.handle?]
  | @journey i k found =>
    have member : k ∈ table.journeys := Array.mem_of_getElem? found
    have there : k ∈ base := inside.among k (by simp [member])
    simp [Value.handle?, there]
  | @form i k found =>
    have member : k ∈ table.forms := Array.mem_of_getElem? found
    have there : k ∈ base := inside.among k (by simp [member])
    simp [Value.handle?, there]
  | exception | ioError => simp [Value.handle?, Machine.roots]

mutual

theorem builds_constant {base : List Handle} (inside : table.Inside forms journeys base)
    (c : Constant) {m : Machine} :
    Builds m₀ env [] (c.Resolves forms journeys) c.objectCount (loadConstant table c) base m
      fun v m' new => Denotes m'.heap table m₀.builtins c v new := by
  have scalar : ∀ {c : Constant} {v : Value} {m : Machine}, (True ↔ c.Resolves forms journeys) →
      c.objectCount = 0 → (∀ heap, Denotes heap table m₀.builtins c v []) →
      Builds m₀ env [] (c.Resolves forms journeys) c.objectCount (pure v) base m
        fun v m' new => Denotes m'.heap table m₀.builtins c v new := by
    intro c v m resolves free denotes
    rw [free]
    exact .idle (resolves.mp trivial) (denotes m.heap)
  cases c with
  | ni => exact scalar (Constant.resolves_alone rfl rfl rfl) rfl fun _ => .ni
  | veracity truth =>
    exact scalar (Constant.resolves_alone rfl rfl rfl) rfl fun _ => .veracity truth
  | numeral n => exact scalar (Constant.resolves_alone rfl rfl rfl) rfl fun _ => .numeral n
  | exception =>
    refine Provides.intro fun rooted => ?_
    have same : m.builtins.exception = m₀.builtins.exception := by rw [rooted.builtins]
    refine scalar (v := .form m.builtins.exception) (Constant.resolves_alone rfl rfl rfl) rfl ?_
    exact fun _ => same ▸ .exception
  | ioError =>
    refine Provides.intro fun rooted => ?_
    have same : m.builtins.ioError = m₀.builtins.ioError := by rw [rooted.builtins]
    refine scalar (v := .form m.builtins.ioError) (Constant.resolves_alone rfl rfl rfl) rfl ?_
    exact fun _ => same ▸ .ioError
  | journey i =>
    have found : Constant.Resolves forms journeys (.journey i) ↔ ∃ h, table.journey i = .ok h := by
      simp only [Constant.resolves_journey, Placed.journey_eq_ok, ← Option.isSome_iff_exists]
      simp [inside.journeys]
    unfold loadConstant
    refine (Builds.ofExcept (Q := fun h _ new => table.journey i = .ok h ∧ new = []) found
      fun h same => ⟨same, rfl⟩).map ?_
    rintro h m' _ _ _ ⟨same, rfl⟩
    exact .journey (Placed.journey_eq_ok.mp same)
  | form i =>
    have found : Constant.Resolves forms journeys (.form i) ↔ ∃ h, table.form i = .ok h := by
      simp only [Constant.resolves_form, Placed.form_eq_ok, ← Option.isSome_iff_exists]
      simp [inside.forms]
    unfold loadConstant
    refine (Builds.ofExcept (Q := fun h _ new => table.form i = .ok h ∧ new = []) found
      fun h same => ⟨same, rfl⟩).map ?_
    rintro h m' _ _ _ ⟨same, rfl⟩
    exact .form (Placed.form_eq_ok.mp same)
  | text content =>
    unfold loadConstant
    refine ((builds_place [] rfl).weaken (Constant.resolves_alone rfl rfl rfl) rfl
      fun _ _ _ _ _ post => post).map ?_
    rintro h m' _ _ _ ⟨rfl, found⟩
    exact .text found
  | book pages =>
    unfold loadConstant
    rw [Constant.objectCount_book, Constant.resolves_book]
    refine Provides.weaken (Provides.bind (builds_place [] rfl) fun h m' new post => ?_)
      (iff_of_eq (true_and _)) rfl fun _ _ _ _ post => post
    obtain ⟨spares, rfl, empty⟩ := post
    refine Provides.intro fun rooted => ?_
    -- The book is new, so what is done to it is no edit of what was there.
    have absent : h ∉ base := by
      have apart := (List.nodup_append.mp rooted.distinct).2.2
      exact fun member => apart h member h (List.mem_singleton_self h) rfl
    have member : h ∈ base ++ [h] := List.mem_append_right _ (List.mem_singleton_self h)
    have filled : Builds m₀ env [h] _ _ (loadPages table h pages) (base ++ [h]) m' _ :=
      builds_pages inside.append member pages empty
    have made := filled.map (f := fun _ => Value.book h) (Q := fun v m'' new =>
      Denotes m''.heap table m₀.builtins (.book pages) v (h :: new)) fun _ m'' new _ _ post => by
        obtain ⟨values, found, each⟩ := post
        exact .book found (by simpa using each)
    refine Provides.weaken made Iff.rfl rfl fun v m'' new _ post => ⟨?_, post.2⟩
    refine spares.trans (post.1.of_append.mono fun k there same => ?_)
    cases List.mem_singleton.mp same
    exact absurd there absent

theorem builds_pages {base : List Handle} (inside : table.Inside forms journeys base)
    {target : Handle} (there : target ∈ base) (pages : List Constant) {values : Array Value} {m : Machine}
    (used : m.heap.get? target = some (.book values)) :
    Builds m₀ env [target] (∀ page ∈ pages, page.Resolves forms journeys)
      (pages.map Constant.objectCount).sum (loadPages table target pages) base m
      fun _ m' new => ∃ more : List Value,
        m'.heap.get? target = some (.book (values ++ more.toArray)) ∧
        Each (Denotes m'.heap table m₀.builtins) pages more new := by
  cases pages with
  | nil =>
    unfold loadPages
    exact .idle (by simp) ⟨[], by simpa using used, .nil⟩
  | cons page pages =>
    unfold loadPages
    simp only [List.forall_mem_cons, List.map_cons, List.sum_cons]
    have apart : ∀ h ∈ ([] : List Handle), h ∈ [target] := List.forall_mem_nil _
    refine Builds.bind ((builds_constant inside page).among apart) fun v m₁ new _ post => ?_
    obtain ⟨spares, denotes⟩ := post
    refine Provides.intro fun rooted => ?_
    have member : target ∈ base ++ new := List.mem_append_left new there
    have still : m₁.heap.get? target = some (.book values) :=
      (spares.same target there List.not_mem_nil).trans used
    have inner : ∀ k ∈ (Object.book values).children, k ∈ m₀.roots ++ (base ++ new) :=
      fun k child => List.mem_append.mpr (rooted.inner target member _ still k child)
    have holds := anchored (denotes.refers inside)
    refine Builds.step (builds_push member still inner holds) fun _ m₂ edited pushed => ?_
    refine (builds_pages inside.append member pages pushed.2).weaken Iff.rfl rfl ?_
    rintro _ m₃ more final after ⟨rest, found, each⟩
    refine ⟨v :: rest, ?_, .cons ?_ each⟩
    · have joined : values.push v ++ rest.toArray = values ++ (v :: rest).toArray :=
        Array.toList_inj.mp (by simp)
      rw [found, joined]
    · -- The objects of the page are not the book that is filled.
      refine stable_denotes _ _ page v new (fun k own => ?_) denotes
      have other := rooted.apart there k own
      have here : k ∈ base ++ new := List.mem_append_right base own
      exact (after.same k here other).trans (edited.same k here other)

end

end Constants

section Lists

variable {α β : Type}

/-- The elements of a list are built one after the other, each with objects of its own. -/
theorem builds_mapM {f : α → Run β} {valid : α → Prop} {cost : α → Nat}
    {R : Heap → α → β → List Handle → Prop} (stable : Stable R) (as : List α)
    (each : ∀ a ∈ as, ∀ more m', Builds m₀ env [] (valid a) (cost a) (f a) (base ++ more) m'
      fun b m'' new => R m''.heap a b new) :
    Builds m₀ env [] (∀ a ∈ as, valid a) (as.map cost).sum (as.mapM f) base m
      fun bs m' new => Each (R m'.heap) as bs new := by
  induction as generalizing base m with
  | nil => exact .idle (by simp) .nil
  | cons a as ih =>
    have first := each a (List.mem_cons_self ..) [] m
    rw [List.append_nil] at first
    simp only [List.mapM_cons, List.forall_mem_cons, List.map_cons, List.sum_cons]
    refine Builds.bind first fun b m₁ new _ made => ?_
    have rest : Builds m₀ env [] _ _ (as.mapM f) (base ++ new) m₁ _ := ih fun c there more m' => by
      rw [List.append_assoc]
      exact each c (List.mem_cons_of_mem a there) (new ++ more) m'
    refine rest.map fun bs m₂ more _ after others => ?_
    refine .cons (stable _ _ a b new (fun h own => ?_) made) others
    exact after.same h (List.mem_append_right base own) List.not_mem_nil

theorem placeAll_eq (objects : List Object) : placeAll objects = objects.mapM place := by
  induction objects with
  | nil => rfl
  | cons object rest ih => rw [placeAll, ih, List.mapM_cons]

theorem loadConstants_eq (constants : List Constant) :
    loadConstants table constants = constants.mapM (loadConstant table) := by
  induction constants with
  | nil => rfl
  | cons c rest ih => rw [loadConstants, ih, List.mapM_cons]

theorem loadPatterns_eq (patterns : List Pattern) :
    loadPatterns table patterns = patterns.mapM (loadPattern table) := by
  induction patterns with
  | nil => rfl
  | cons p rest ih => rw [loadPatterns, ih, List.mapM_cons]

def loadEssence (table : Placed) (e : Essence) : Run JourneyMachine.Essence := do
  let value ← loadConstant table e.value
  let guard ← loadOptional table e.guard
  return { name := e.name, value, guard }

theorem loadEssences_eq (essences : List Essence) :
    loadEssences table essences = essences.mapM (loadEssence table) := by
  induction essences with
  | nil => rfl
  | cons e rest ih =>
    simp only [loadEssences, ih, List.mapM_cons, loadEssence, bind_assoc, pure_bind]

def loadField (table : Placed) (f : Matter) : Run JourneyMachine.Matter := do
  let guard ← loadOptional table f.guard
  return { name := f.name, guard }

theorem loadMatter_eq (matter : List Matter) :
    loadMatter table matter = matter.mapM (loadField table) := by
  induction matter with
  | nil => rfl
  | cons f rest ih => simp only [loadMatter, ih, List.mapM_cons, loadField, bind_assoc, pure_bind]

end Lists

section Parts

variable (inside : table.Inside forms journeys base)
include inside

theorem builds_constants (constants : List Constant) :
    Builds m₀ env [] (∀ c ∈ constants, c.Resolves forms journeys)
      (constants.map Constant.objectCount).sum (constants.mapM (loadConstant table)) base m
      fun values m' new => Each (Denotes m'.heap table m₀.builtins) constants values new :=
  builds_mapM stable_denotes constants fun c _ _ _ => builds_constant inside.append c

theorem builds_optional (guard : Option Constant) :
    Builds m₀ env [] (∀ c ∈ guard.toList, c.Resolves forms journeys)
      (guard.toList.map Constant.objectCount).sum (loadOptional table guard) base m
      fun v m' new => Each (Denotes m'.heap table m₀.builtins) guard.toList v.toList new := by
  cases guard with
  | none => exact .idle (by simp) .nil
  | some c =>
    refine Builds.congr (Builds.map (builds_constant inside c) fun v m' new _ _ denotes => ?_)
      (by simp) (by simp)
    simpa using Each.cons denotes .nil

theorem builds_pattern (p : Pattern) :
    Builds m₀ env [] (∀ c ∈ p.block.constants, c.Resolves forms journeys)
      (p.block.constants.map Constant.objectCount).sum (loadPattern table p) base m
      fun q m' new => p.Carried m'.heap table m₀.builtins q new := by
  have carried (ps : List Parameter) :
      List.Forall₂ Parameter.Carried ps (ps.map loadParameter) := by
    rw [List.forall₂_map_right_iff]
    exact List.forall₂_same.mpr fun p _ => ⟨rfl, rfl, rfl⟩
  unfold loadPattern
  rw [loadConstants_eq]
  refine (builds_constants inside p.block.constants).map fun values m' new _ _ each => ?_
  exact ⟨carried _, carried _, rfl, rfl, rfl, rfl, rfl, rfl, each⟩

theorem builds_patterns (patterns : List Pattern) :
    Builds m₀ env [] (∀ p ∈ patterns, ∀ c ∈ p.block.constants, c.Resolves forms journeys)
      (patterns.map fun p => (p.block.constants.map Constant.objectCount).sum).sum
      (loadPatterns table patterns) base m
      fun qs m' new => Each (Pattern.Carried m'.heap table m₀.builtins) patterns qs new := by
  rw [loadPatterns_eq]
  exact builds_mapM stable_pattern patterns fun p _ _ _ => builds_pattern inside.append p

theorem builds_essence (e : Essence) :
    Builds m₀ env [] (∀ c ∈ e.value :: e.guard.toList, c.Resolves forms journeys)
      ((e.value :: e.guard.toList).map Constant.objectCount).sum (loadEssence table e) base m
      fun q m' new => e.Carried m'.heap table m₀.builtins q new := by
  simp only [List.forall_mem_cons, List.map_cons, List.sum_cons]
  refine Builds.bind (builds_constant inside e.value) fun v m₁ new _ denotes => ?_
  refine (builds_optional inside.append e.guard).map fun g m₂ more _ after guard => ?_
  refine ⟨rfl, .cons (stable_denotes _ _ _ v new (fun h own => ?_) denotes) guard⟩
  exact after.same h (List.mem_append_right base own) List.not_mem_nil

theorem builds_field (f : Matter) :
    Builds m₀ env [] (∀ c ∈ f.guard.toList, c.Resolves forms journeys)
      (f.guard.toList.map Constant.objectCount).sum (loadField table f) base m
      fun q m' new => f.Carried m'.heap table m₀.builtins q new :=
  (builds_optional inside f.guard).map fun _ _ _ _ _ guard => ⟨rfl, guard⟩

end Parts

section Indices

theorem mapM_ofExcept {α β : Type} (f : α → Except Fault β) (as : List α) :
    (as.mapM fun a => ofExcept (f a)) = ofExcept (as.mapM f) := by
  induction as with
  | nil => rfl
  | cons a as ih =>
    rw [List.mapM_cons, List.mapM_cons, ih]
    cases f a with
    | error fault => rfl
    | ok b => cases as.mapM f <;> rfl

variable {find : UInt32 → Except Fault Handle} {handles : Array Handle}
  (finds : ∀ {i h}, find i = .ok h ↔ handles[i.toNat]? = some h)
include finds

theorem mapM_eq_ok (indices : List UInt32) (hs : List Handle) :
    indices.mapM find = .ok hs ↔ indices.map (handles[·.toNat]?) = hs.map some := by
  induction indices generalizing hs with
  | nil => cases hs <;> simp [pure, Except.pure]
  | cons i indices ih =>
    rw [List.mapM_cons]
    constructor
    · intro done
      cases found : find i with
      | error fault =>
        rw [found] at done
        cases done
      | ok h =>
        cases rest : indices.mapM find with
        | error fault =>
          rw [found, rest] at done
          cases done
        | ok others =>
          rw [found, rest] at done
          cases done
          rw [List.map_cons, List.map_cons, finds.mp found, (ih others).mp rest]
    · intro same
      cases hs with
      | nil => cases same
      | cons h hs =>
        obtain ⟨first, rest⟩ := List.cons.inj same
        rw [finds.mpr first, (ih hs).mpr rest]
        rfl

omit finds in
theorem exists_map_some (indices : List UInt32) :
    (∀ i ∈ indices, i.toNat < handles.size) ↔
      ∃ hs : List Handle, indices.map (handles[·.toNat]?) = hs.map some := by
  induction indices with
  | nil => exact ⟨fun _ => ⟨[], rfl⟩, fun _ => by simp⟩
  | cons i indices ih =>
    rw [List.forall_mem_cons, ih]
    constructor
    · rintro ⟨here, hs, rest⟩
      exact ⟨handles[i.toNat] :: hs, by simp [here, rest]⟩
    · rintro ⟨hs, same⟩
      cases hs with
      | nil => cases same
      | cons h hs =>
        obtain ⟨first, rest⟩ := List.cons.inj same
        exact ⟨(Array.getElem?_eq_some_iff.mp first).1, hs, rest⟩

theorem builds_indices {edits : List Handle} (indices : List UInt32) :
    Builds m₀ env edits (∀ i ∈ indices, i.toNat < handles.size) 0
      (indices.mapM fun i => ofExcept (find i)) base m
      fun hs m' new => m' = m ∧ new = [] ∧ indices.map (handles[·.toNat]?) = hs.map some := by
  rw [mapM_ofExcept]
  refine .ofExcept ?_ fun hs same => ⟨rfl, rfl, (mapM_eq_ok finds indices hs).mp same⟩
  simp only [mapM_eq_ok finds]
  exact exists_map_some indices

theorem builds_index {edits : List Handle} (index : Option UInt32) :
    Builds m₀ env edits (∀ i ∈ index.toList, i.toNat < handles.size) 0
      (index.mapM fun i => ofExcept (find i)) base m
      fun h m' new => m' = m ∧ new = [] ∧ index.map (handles[·.toNat]?) = h.map some := by
  cases index with
  | none =>
    exact .idle (by simp) ⟨rfl, rfl, rfl⟩
  | some i =>
    have found : (∀ j ∈ (some i).toList, j.toNat < handles.size) ↔ ∃ h, find i = .ok h := by
      simp only [finds, ← Option.isSome_iff_exists]
      simp
    refine Builds.map (Builds.ofExcept (Q := fun h m' new => m' = m ∧ new = [] ∧ find i = .ok h)
      found fun h same => ⟨rfl, rfl, same⟩) ?_
    rintro h m' new - - ⟨rfl, rfl, same⟩
    exact ⟨rfl, rfl, by simp [finds.mp same]⟩

end Indices

section Forms

theorem sum_flatMap {α β : Type} (g : β → Nat) (f : α → List β) (as : List α) :
    ((as.flatMap f).map g).sum = (as.map fun a => ((f a).map g).sum).sum := by
  induction as with
  | nil => rfl
  | cons a as ih => simp [ih]

theorem builds_form (inside : table.Inside forms journeys base) (f : Form) :
    Builds m₀ env [] (f.Resolves forms journeys) (f.constants.map Constant.objectCount).sum
      (loadForm table f) base m fun q m' new => f.Filled m'.heap table m₀.builtins q new := by
  have found : ∀ {i h}, table.journey i = .ok h ↔ table.journeys[i.toNat]? = some h :=
    Placed.journey_eq_ok
  -- The parts of a form are loaded one after the other; these say how their conditions and counts
  -- add up.
  have resolves : ((∀ e ∈ f.essences, ∀ c ∈ e.value :: e.guard.toList, c.Resolves forms journeys) ∧
      (∀ e ∈ f.matter, ∀ c ∈ e.guard.toList, c.Resolves forms journeys) ∧
      (∀ i ∈ f.recollections, i.toNat < table.journeys.size) ∧
      (∀ i ∈ f.changes, i.toNat < table.journeys.size) ∧
      (∀ i ∈ f.imitate.toList, i.toNat < table.journeys.size) ∧
      ∀ i ∈ f.parents, i.toNat < table.forms.size) ↔ f.Resolves forms journeys := by
    simp only [Form.Resolves, Form.constants, Form.journeyIndices, List.forall_mem_append,
      List.forall_mem_flatMap, inside.forms, inside.journeys]
    tauto
  have count : (f.essences.map fun e =>
      ((e.value :: e.guard.toList).map Constant.objectCount).sum).sum +
      ((f.matter.map fun e => (e.guard.toList.map Constant.objectCount).sum).sum +
        (0 + (0 + (0 + 0)))) = (f.constants.map Constant.objectCount).sum := by
    simp only [Form.constants, List.map_append, List.sum_append, sum_flatMap, Nat.add_zero]
  refine Builds.congr ?_ resolves count
  unfold loadForm
  rw [loadEssences_eq, loadMatter_eq]
  refine Builds.bind (builds_mapM stable_essence f.essences fun e _ _ _ =>
    builds_essence inside.append e) fun essences m₁ first _ carried => ?_
  refine Builds.bind (builds_mapM stable_matter f.matter fun e _ _ _ =>
    builds_field inside.append.append e) fun matter m₂ second after fields => ?_
  refine Builds.bind (builds_indices found f.recollections) ?_
  rintro recollections _ _ - ⟨rfl, rfl, recollected⟩
  refine Builds.bind (builds_indices found f.changes) ?_
  rintro changes _ _ - ⟨rfl, rfl, changed⟩
  refine Builds.bind (builds_index found f.imitate) ?_
  rintro imitate _ _ - ⟨rfl, rfl, imitated⟩
  refine (builds_indices Placed.form_eq_ok f.parents).map ?_
  rintro parents _ _ - - ⟨rfl, rfl, inherited⟩
  refine ⟨rfl, ⟨first, second, by simp, ?_, fields⟩, recollected, changed, imitated, inherited⟩
  exact (stable_essence).each _ _ _ _ first (fun h own =>
    after.same h (List.mem_append_right base own) List.not_mem_nil) carried

end Forms

section Fills

variable {α : Type}

/-- Objects that were placed empty are filled one after the other, each with objects of its own. -/
theorem builds_fill {one : α → Handle → Run Unit} {valid : α → Prop} {cost : α → Nat}
    {genus : Genus} {R : Heap → α → Handle → List Handle → Prop}
    (stable : ∀ {heap after a h own}, R heap a h own → after.get? h = heap.get? h →
      (∀ k ∈ own, after.get? k = heap.get? k) → R after a h own)
    (as : List α) {hs : List Handle} (lengths : hs.length = as.length) (there : ∀ h ∈ hs, h ∈ base)
    (distinct : hs.Nodup) (ready : ∀ h ∈ hs, ∃ o, m.heap.get? h = some o ∧ o.genus = genus)
    (each : ∀ a h more m', h ∈ base ++ more →
      (∃ o, m'.heap.get? h = some o ∧ o.genus = genus) →
      Builds m₀ env [h] (valid a) (cost a) (one a h) (base ++ more) m'
        fun _ m'' new => R m''.heap a h new) :
    Builds m₀ env hs (∀ a ∈ as, valid a) (as.map cost).sum
      ((as.zip hs).forM fun p => one p.1 p.2) base m
      fun _ m' new => Each (R m'.heap) as hs new := by
  -- On the objects to fill: what an object was given stays, as later ones are other objects.
  induction as generalizing hs base m with
  | nil =>
    cases List.length_eq_zero_iff.mp lengths
    exact .idle (by simp) .nil
  | cons a as ih =>
    obtain ⟨h, hs, rfl⟩ := List.exists_cons_of_length_eq_add_one lengths
    simp only [List.forall_mem_cons, List.nodup_cons] at there ready distinct ⊢
    have first := each a h [] m (List.mem_append_left [] there.1) ready.1
    rw [List.append_nil] at first
    rw [List.map_cons, List.sum_cons]
    refine Builds.bind (first.among (by simp)) fun _ m₁ new _ post => ?_
    obtain ⟨edited, made⟩ := post
    refine Provides.intro fun rooted => ?_
    have others : ∀ k ∈ hs, k ∉ [h] := fun k member same =>
      distinct.1 (List.mem_singleton.mp same ▸ member)
    have rest : Builds m₀ env hs _ _ _ (base ++ new) m₁ _ := ih (Nat.succ.inj lengths)
      (fun k member => List.mem_append_left new (there.2 k member)) distinct.2
      (fun k member => by
        rw [edited.same k (there.2 k member) (others k member)]
        exact ready.2 k member)
      fun b k more m' member => by
        rw [List.append_assoc] at member ⊢
        exact each b k (new ++ more) m' member
    refine (rest.among fun k member => List.mem_cons_of_mem h member).weaken Iff.rfl rfl ?_
    rintro _ m₂ more - - ⟨after, filled⟩
    refine .cons (stable made ?_ fun k own => ?_) filled
    · exact after.same h (List.mem_append_left new there.1) distinct.1
    · refine after.same k (List.mem_append_right base own) fun member => ?_
      exact rooted.apart (there.2 k member) k own (List.mem_singleton_self k)

def fillJourney (table : Placed) (j : Journey) (h : Handle) : Run Unit := do
  let patterns ← loadPatterns table j.patterns
  discard (journey h)
  update h fun _ => .journey { name := j.name, patterns }

theorem fillJourneys_eq (pairs : List (Journey × Handle)) :
    fillJourneys table pairs = pairs.forM fun p => fillJourney table p.1 p.2 := by
  induction pairs with
  | nil => rfl
  | cons p pairs ih =>
    simp only [fillJourneys, ih, List.forM, fillJourney, bind_assoc]

def fillForm (table : Placed) (f : Form) (h : Handle) : Run Unit := do
  let filled ← loadForm table f
  editForm h fun _ => filled

theorem fillForms_eq (pairs : List (Form × Handle)) :
    fillForms table pairs = pairs.forM fun p => fillForm table p.1 p.2 := by
  induction pairs with
  | nil => rfl
  | cons p pairs ih =>
    simp only [fillForms, ih, List.forM, fillForm, bind_assoc]

end Fills

section References

variable {heap : Heap} {own : List Handle}

theorem refers_values (inside : table.Inside forms journeys base) {constants : List Constant}
    {values : List Value}
    (each : Each (Denotes heap table m₀.builtins) constants values own) :
    ∀ h ∈ values.filterMap Value.handle?, h ∈ own ∨ h ∈ m₀.roots ++ base := by
  rw [List.filterMap_eq_flatMap_toList]
  exact each.flatMap_sub fun _ _ _ denotes => denotes.refers inside

theorem refers_journey (inside : table.Inside forms journeys base) {patterns : List Pattern}
    {name : String} {qs : List JourneyMachine.Pattern}
    (each : Each (Pattern.Carried heap table m₀.builtins) patterns qs own) :
    ∀ h ∈ (Object.journey ⟨name, qs⟩).children, h ∈ own ∨ h ∈ m₀.roots ++ base :=
  each.flatMap_sub fun _ _ _ carried => refers_values inside carried.constants

theorem mem_of_map_some {indices : List UInt32} {handles : Array Handle} {hs : List Handle}
    (same : indices.map (handles[·.toNat]?) = hs.map some) : ∀ h ∈ hs, h ∈ handles.toList := by
  intro h member
  have there : some h ∈ indices.map (handles[·.toNat]?) := same ▸ List.mem_map_of_mem member
  obtain ⟨i, _, found⟩ := List.mem_map.mp there
  exact Array.mem_toList_iff.mpr (Array.mem_of_getElem? found)

theorem refers_form (inside : table.Inside forms journeys base) {f : Form} {q : JourneyMachine.Form}
    (filled : f.Filled heap table m₀.builtins q own) :
    ∀ h ∈ (Object.form q).children, h ∈ own ∨ h ∈ m₀.roots ++ base := by
  obtain ⟨first, second, rfl, essences, matter⟩ := filled.fields
  have known : ∀ h, h ∈ table.forms.toList ++ table.journeys.toList → h ∈ m₀.roots ++ base :=
    fun h member => List.mem_append_right _ (inside.among h member)
  have journeys : ∀ {indices : List UInt32} {hs : List Handle},
      indices.map (table.journeys[·.toNat]?) = hs.map some → ∀ h ∈ hs, h ∈ m₀.roots ++ base :=
    fun same h member => known h (List.mem_append_right _ (mem_of_map_some same h member))
  have imitate : f.imitate.toList.map (table.journeys[·.toNat]?) = q.imitate.toList.map some := by
    simpa only [Option.toList_map] using congrArg Option.toList filled.imitate
  have guarded : ∀ (guard : Option Value) h, h ∈ (guard.bind Value.handle?).toList →
      h ∈ guard.toList.filterMap Value.handle? := by
    intro guard h member
    cases guard with
    | none => simp at member
    | some v => simpa [List.mem_filterMap] using member
  intro h member
  simp only [Object.children, JourneyMachine.Form.children, List.mem_append] at member
  rw [List.mem_append]
  rcases member with ((((value | guard) | recollection) | change) | constructor) | parent
  · refine (essences.flatMap_sub (fun e d part carried k there => ?_) h value).imp_left .inl
    refine refers_values inside carried.values k ?_
    rcases List.mem_append.mp there with here | there
    · exact List.mem_filterMap.mpr ⟨d.value, List.mem_cons_self .., Option.mem_toList.mp here⟩
    · obtain ⟨v, inGuard, handle⟩ := List.mem_filterMap.mp (guarded d.guard k there)
      exact List.mem_filterMap.mpr ⟨v, List.mem_cons_of_mem _ inGuard, handle⟩
  · refine (matter.flatMap_sub (fun e d part carried k there => ?_) h guard).imp_left .inr
    exact refers_values inside carried.guard k (guarded d.guard k there)
  · exact .inr (journeys filled.recollections h recollection)
  · exact .inr (journeys filled.changes h change)
  · exact .inr (journeys imitate h constructor)
  · exact .inr (known h (List.mem_append_left _ (mem_of_map_some filled.parents h parent)))

end References

section Filling

variable (inside : table.Inside forms journeys base)
include inside

theorem builds_fillJourney (j : Journey) {h : Handle} (there : h ∈ base)
    (ready : ∃ o, m.heap.get? h = some o ∧ o.genus = .journey) :
    Builds m₀ env [h] (∀ c ∈ j.constants, c.Resolves forms journeys)
      (j.constants.map Constant.objectCount).sum (fillJourney table j h) base m
      fun _ m' new => j.Carried m'.heap table m₀.builtins h new := by
  have resolves : ((∀ p ∈ j.patterns, ∀ c ∈ p.block.constants, c.Resolves forms journeys) ∧ True) ↔
      ∀ c ∈ j.constants, c.Resolves forms journeys := by
    rw [and_true, Journey.constants, List.forall_mem_flatMap]
  have count : (j.patterns.map fun p => (p.block.constants.map Constant.objectCount).sum).sum + 0 =
      (j.constants.map Constant.objectCount).sum := by
    rw [Nat.add_zero, Journey.constants, sum_flatMap]
  refine Builds.congr ?_ resolves count
  refine Builds.bind ((builds_patterns inside j.patterns).among (List.forall_mem_nil _)) ?_
  rintro patterns m₁ new - ⟨spares, carried⟩
  refine Provides.intro fun rooted => ?_
  obtain ⟨o, used, genus⟩ := ready
  have still : m₁.heap.get? h = some o := (spares.same h there List.not_mem_nil).trans used
  obtain ⟨q, rfl⟩ : ∃ q, o = .journey q := by
    cases o with
    | journey q => exact ⟨q, rfl⟩
    | _ => cases genus
  have looked : m₁.heap.journey h = .ok q := Heap.read_some still rfl
  refine (builds_replace (reads looked) (List.mem_append_left new there) still rfl
    (anchored (refers_journey inside carried))).weaken Iff.rfl rfl ?_
  rintro _ m₂ _ - after ⟨rfl, found⟩
  refine ⟨_, found, rfl, ?_⟩
  rw [List.append_nil]
  refine (stable_pattern).each _ _ _ _ new (fun k own => ?_) carried
  exact after.same k (List.mem_append_right base own) (rooted.apart there k own)

theorem builds_fillForm (f : Form) {h : Handle} (there : h ∈ base)
    (ready : ∃ o, m.heap.get? h = some o ∧ o.genus = .form) :
    Builds m₀ env [h] (f.Resolves forms journeys) (f.constants.map Constant.objectCount).sum
      (fillForm table f h) base m
      fun _ m' new => f.Carried m'.heap table m₀.builtins h new := by
  refine Builds.congr (Builds.bind ((builds_form inside f).among (List.forall_mem_nil _)) ?_)
    (and_iff_left trivial) (Nat.add_zero _)
  rintro filled m₁ new - ⟨spares, carried⟩
  refine Provides.intro fun rooted => ?_
  obtain ⟨o, used, genus⟩ := ready
  have still : m₁.heap.get? h = some o := (spares.same h there List.not_mem_nil).trans used
  obtain ⟨q, rfl⟩ : ∃ q, o = .form q := by
    cases o with
    | form q => exact ⟨q, rfl⟩
    | _ => cases genus
  have looked : m₁.heap.form h = .ok q := Heap.read_some still rfl
  refine (builds_replace (reads looked) (List.mem_append_left new there) still rfl
    (anchored (refers_form inside carried))).weaken Iff.rfl rfl ?_
  rintro _ m₂ _ - after ⟨rfl, found⟩
  refine ⟨filled, found, ?_⟩
  rw [List.append_nil]
  refine stable_filled _ _ f filled new (fun k own => ?_) carried
  exact after.same k (List.mem_append_right base own) (rooted.apart there k own)

end Filling

section Stages

section Each

variable {α β : Type} {R : α → β → List Handle → Prop} {as : List α} {own : List Handle}

theorem Each.exists_left {bs : List β} (each : Each R as bs own) :
    ∀ b ∈ bs, ∃ a ∈ as, ∃ part, R a b part := by
  induction each with
  | nil => simp
  | @cons a b part _ as bs first _ ih =>
    intro c member
    rcases List.mem_cons.mp member with rfl | later
    · exact ⟨a, List.mem_cons_self .., part, first⟩
    · obtain ⟨d, there, rest⟩ := ih c later
      exact ⟨d, List.mem_cons_of_mem a there, rest⟩

theorem Each.own_eq {R : α → Handle → List Handle → Prop} {hs : List Handle}
    (each : Each R as hs own) (single : ∀ a h part, R a h part → part = [h]) : hs = own := by
  induction each with
  | nil => rfl
  | cons first _ ih =>
    rw [single _ _ _ first, ← ih]
    rfl

end Each

/-- An object without children is placed for every element of a list. -/
theorem builds_placeAll {α : Type} {blank : α → Object} (genus : Genus)
    (childless : ∀ a, (blank a).children = []) (same : ∀ a, (blank a).genus = genus) (as : List α) :
    Builds m₀ env [] True as.length (placeAll (as.map blank)) base m
      fun hs m' new => hs = new ∧ hs.length = as.length ∧
        ∀ h ∈ hs, ∃ o, m'.heap.get? h = some o ∧ o.genus = genus := by
  have stable : Stable fun heap o h own => own = [h] ∧ heap.get? h = some o := by
    rintro heap after o h own same ⟨rfl, found⟩
    exact ⟨rfl, (same h (List.mem_singleton_self h)).trans found⟩
  rw [placeAll_eq, ← List.length_map blank]
  refine (builds_mapM stable (as.map blank) fun o member _ _ => builds_place [] ?_).weaken
    (by simp) (by simp [Function.comp_def]) fun hs m' new _ _ each =>
      ⟨each.own_eq fun _ _ _ => And.left, each.length.symm, fun h member => ?_⟩
  · obtain ⟨a, _, rfl⟩ := List.mem_map.mp member
    exact childless a
  · obtain ⟨o, there, _, _, found⟩ := each.exists_left h member
    obtain ⟨a, _, rfl⟩ := List.mem_map.mp there
    exact ⟨blank a, found, same a⟩

variable (inside : table.Inside forms journeys base)
include inside

theorem builds_journeys (js : List Journey) {hs : List Handle} (lengths : hs.length = js.length)
    (there : ∀ h ∈ hs, h ∈ base) (distinct : hs.Nodup)
    (ready : ∀ h ∈ hs, ∃ o, m.heap.get? h = some o ∧ o.genus = .journey) :
    Builds m₀ env hs (∀ j ∈ js, ∀ c ∈ j.constants, c.Resolves forms journeys)
      (js.map fun j => (j.constants.map Constant.objectCount).sum).sum
      (fillJourneys table (js.zip hs)) base m
      fun _ m' new => Each (Journey.Carried m'.heap table m₀.builtins) js hs new := by
  rw [fillJourneys_eq]
  exact builds_fill (R := fun heap => Journey.Carried heap table m₀.builtins) (·.stable) js lengths
    there distinct ready fun j h _ _ => builds_fillJourney inside.append j

theorem builds_forms (fs : List Form) {hs : List Handle} (lengths : hs.length = fs.length)
    (there : ∀ h ∈ hs, h ∈ base) (distinct : hs.Nodup)
    (ready : ∀ h ∈ hs, ∃ o, m.heap.get? h = some o ∧ o.genus = .form) :
    Builds m₀ env hs (∀ f ∈ fs, f.Resolves forms journeys)
      (fs.map fun f => (f.constants.map Constant.objectCount).sum).sum
      (fillForms table (fs.zip hs)) base m
      fun _ m' new => Each (Form.Carried m'.heap table m₀.builtins) fs hs new := by
  rw [fillForms_eq]
  exact builds_fill (R := fun heap => Form.Carried heap table m₀.builtins) (·.stable) fs lengths
    there distinct ready fun f h _ _ => builds_fillForm inside.append f

/-- The globals are defined in order, and nothing that was placed before is edited. -/
theorem provides_globals (globals : List Global) :
    Provides m₀ env (∀ g ∈ globals, g.value.Resolves forms journeys)
      (globals.map (·.value.objectCount)).sum (loadGlobals table globals) base m
      fun _ m' new => (∀ h ∈ base, m'.heap.get? h = m.heap.get? h) ∧
        ∃ entries : List (String × Value),
          m'.program = { m.program with globals := m.program.globals ++ entries.toArray } ∧
          Each (Global.Carried m'.heap table m₀.builtins) globals entries new := by
  induction globals generalizing base m with
  | nil => exact .idle (by simp) ⟨fun _ _ => rfl, [], by simp, .nil⟩
  | cons g globals ih =>
    rw [List.forall_mem_cons, List.map_cons, List.sum_cons]
    refine Provides.bind (builds_constant inside g.value) fun v m₁ new post => ?_
    obtain ⟨spares, denotes⟩ := post
    refine Provides.modify (fun rooted => rooted.defineGlobal g.name fun k handle => ?_) ?_
    · exact List.mem_append.mp (anchored (denotes.refers inside) k (Option.mem_toList.mpr handle))
    · refine (ih inside.append).weaken Iff.rfl rfl ?_
      rintro _ m₂ more - ⟨same, entries, program, each⟩
      refine ⟨fun h member => ?_, (g.name, v) :: entries, ?_, .cons ⟨rfl, ?_⟩ each⟩
      · have kept := same h (List.mem_append_left new member)
        exact kept.trans (spares.same h member List.not_mem_nil)
      · have before : (m₁.defineGlobal g.name v).program =
            { m.program with globals := m.program.globals.push (g.name, v) } := by
          rw [← spares.program]
          rfl
        have joined : m.program.globals.push (g.name, v) ++ entries.toArray =
            m.program.globals ++ ((g.name, v) :: entries).toArray := Array.toList_inj.mp (by simp)
        rw [program, before, joined]
      · refine stable_denotes _ _ _ v new (fun h own => ?_) denotes
        exact same h (List.mem_append_right base own)

end Stages

end JourneyMachine.Image
