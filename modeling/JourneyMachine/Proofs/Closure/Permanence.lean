import JourneyMachine.Proofs.Control.Restoration
import JourneyMachine.Proofs.Image.Faithfulness

/-! What stays of an object while code runs. A machine that was loaded is shaped, since a load makes
no imitation and edits nothing but what it placed. So every stage of every run is shaped, and of two
stages the heap of the later one is what became of the heap of the earlier one. -/

namespace JourneyMachine

open Host (World)
open Machine (Within)

namespace Heap

/-- Just these slots are in use, and hold these objects. -/
def Consists (objects : List (Handle × Object)) (heap : Heap) : Prop :=
  ∀ h o, heap.get? h = some o ↔ (h, o) ∈ objects

theorem consists_empty (capacity : Nat) : (empty capacity).Consists [] := by
  intro h o
  constructor
  · intro used
    obtain ⟨c, found, _⟩ := (get?_eq_some).mp used
    have impossible := (tidy_empty capacity).born h c found
    contradiction
  · simp

end Heap

namespace Machine

theorem place_consists {heap new : Heap} {roots : List Handle} {objects : List (Handle × Object)}
    {object : Object} {h : Handle} (tidy : heap.Tidy) (consists : heap.Consists objects)
    (rooted : ∀ p ∈ objects, p.1 ∈ roots) (placed : place heap roots object = .ok (h, new)) :
    new.Tidy ∧ new.Consists (objects ++ [(h, object)]) := by
  unfold place at placed
  split at placed
  · rename_i k heap' same
    cases placed
    have contract := Heap.allocate_meets tidy object roots
    have still := tidy.allocate object roots
    rw [same] at contract still
    obtain ⟨_, there, _⟩ := contract.placed h rfl
    refine ⟨still, fun k o => ⟨fun used => ?_, fun member => ?_⟩⟩
    · rcases Heap.allocate_made tidy same used with before | ⟨here, rfl⟩
      · exact List.mem_append_left _ ((consists k o).mp before)
      · cases here
        simp
    · rcases List.mem_append.mp member with old | new
      · have before := (consists k o).mpr old
        have root : k ∈ roots ++ object.children := List.mem_append_left _ (rooted _ old)
        rw [contract.kept k (.root root before)]
        exact before
      · cases List.mem_singleton.mp new
        exact there
  · contradiction

/-- Every slot in use is one of the built-ins' or holds the message of one. -/
theorem start_consists {settings : Settings} {world : World} {m : Machine}
    (started : start settings world = .ok m) : m.program.globals = #[] ∧ ∃ text parents,
      m.heap.Consists [
        (m.builtins.exception, .form { name := "Exception", matter := [{ name := "msg" }] }),
        (m.builtins.ioError, .form { name := "IoError", matter := [{ name := "msg" }], parents }),
        (text, .text heapExhaustedMessage),
        (m.builtins.heapExhausted,
          .imitation { form := m.builtins.exception, matter := #[.text text] })] := by
  unfold start at started
  split at started
  · contradiction
  · obtain ⟨⟨exception, heap₁⟩, first, started⟩ := bound started
    obtain ⟨⟨ioError, heap₂⟩, second, started⟩ := bound started
    obtain ⟨⟨text, heap₃⟩, third, started⟩ := bound started
    obtain ⟨⟨heapExhausted, heap₄⟩, fourth, started⟩ := bound started
    have blank := Heap.consists_empty settings.heapSlots
    obtain ⟨tidy₁, one⟩ := place_consists (Heap.tidy_empty _) blank (by simp) first
    obtain ⟨tidy₂, two⟩ := place_consists tidy₁ one (by simp) second
    obtain ⟨tidy₃, three⟩ := place_consists tidy₂ two (by simp) third
    obtain ⟨_, four⟩ := place_consists tidy₃ three (by simp) fourth
    cases started
    exact ⟨rfl, text, [exception], four⟩

theorem start_shaped {settings : Settings} {world : World} {m : Machine}
    (started : start settings world = .ok m) : m.heap.Shaped m.builtins := by
  obtain ⟨_, text, parents, consists⟩ := start_consists started
  have exception : m.heap.Declares m.builtins.exception 1 :=
    ⟨_, (consists _ _).mpr (List.mem_cons_self ..), rfl⟩
  constructor
  · intro h o used i same
    subst same
    have member := (consists h _).mp used
    simp only [List.mem_cons, Prod.mk.injEq, reduceCtorEq, and_false, false_or,
      Object.imitation.injEq, List.not_mem_nil, or_false] at member
    rw [member.2]
    exact exception
  · exact exception
  · exact ⟨_, (consists _ _).mpr (List.mem_cons_of_mem _ (List.mem_cons_self ..)), rfl⟩

theorem start_reachable {settings : Settings} {world : World} {m : Machine}
    (started : start settings world = .ok m) {h : Handle} {o : Object}
    (used : m.heap.get? h = some o) : m.heap.Reachable m.roots h := by
  obtain ⟨_, text, parents, consists⟩ := start_consists started
  have root : ∀ k ∈ [m.builtins.exception, m.builtins.ioError, m.builtins.heapExhausted],
      k ∈ m.roots := by
    intro k member
    exact List.mem_append_right _ member
  have member := (consists h o).mp used
  simp only [List.mem_cons, Prod.mk.injEq, List.not_mem_nil, or_false] at member
  rcases member with ⟨rfl, _⟩ | ⟨rfl, _⟩ | ⟨rfl, _⟩ | ⟨rfl, _⟩
  · exact .root (root _ (by simp)) used
  · exact .root (root _ (by simp)) used
  · -- The message is reached from the exception that carries it.
    have carrier := (consists m.builtins.heapExhausted _).mpr
      (List.mem_cons_of_mem _ (List.mem_cons_of_mem _ (List.mem_cons_of_mem _
        (List.mem_singleton_self _))))
    exact .child (.root (root _ (by simp)) carrier) carrier
      (by simp [Object.children, Value.handle?]) used
  · exact .root (root _ (by simp)) used

end Machine

namespace Image

open Run

variable {m m' : Machine} {env : Env} {journeys : List Value}

/-- What a load leaves is rooted in what it started from. -/
theorem load_rooted (image : Image) (tidy : m.heap.Tidy) (empty : m.program.globals = #[])
    (loaded : image.load env m = .ok journeys m') :
    ∃ placed full, m.Rooted placed full ∧ m'.heap = full.heap ∧ m'.builtins = full.builtins := by
  rw [load_eq, if_pos (by rw [empty]; rfl)] at loaded
  unfold settle at loaded
  rw [withPinned_eq, show m.pin [] = m from rfl, link_eq] at loaded
  have outcome := image.provides_install env m (.start tidy)
  cases done : image.install env m with
  | error unwind m₁ =>
    rw [bind_error done] at loaded
    cases unwind <;> contradiction
  | ok table m₁ =>
    rw [done] at outcome
    obtain ⟨_, new, _, rooted, _⟩ := outcome
    rw [bind_ok done] at loaded
    -- Naming the entry comes last and leaves the heap alone.
    have appointed := image.appoint_outcome env m₁ table
    cases ended : appoint table image.argvGlobal image.main env m₁ with
    | error unwind m₂ =>
      rw [ended] at loaded
      cases unwind <;> contradiction
    | ok values m₂ =>
      rw [ended] at loaded appointed
      obtain ⟨_, _, rfl⟩ := appointed
      cases loaded
      exact ⟨_, m₁, rooted, rfl, rfl⟩

end Image

namespace Machine

/-- What was rooted before is left as it was, and nothing that was placed is an imitation. -/
theorem Rooted.shaped {m₀ m : Machine} {placed : List Handle} (rooted : Rooted m₀ placed m)
    (shaped : m₀.heap.Shaped m₀.builtins)
    (all : ∀ h o, m₀.heap.get? h = some o → m₀.heap.Reachable m₀.roots h) :
    m.heap.Shaped m₀.builtins := by
  have kept : ∀ {h : Handle} {count : Nat}, m₀.heap.Declares h count → m.heap.Declares h count := by
    rintro h count ⟨f, used, fields⟩
    exact ⟨f, (rooted.kept h (all h _ used)).trans used, fields⟩
  constructor
  · -- What was placed is no imitation, so this one was there from the start.
    intro h o used i same
    rcases rooted.known h o used with there | ⟨before, start⟩
    · have plain := rooted.plain h there o used
      rw [same] at plain
      exact absurd rfl plain
    · rw [rooted.kept h (all h before start)] at used
      exact kept (shaped.suited h o used i same)
  · exact kept shaped.exception
  · exact kept shaped.ioError

theorem Loads.shaped {settings : Settings} {world : World} {image : Image} {m : Machine}
    (loads : Loads settings world image m) : m.heap.Shaped m.builtins := by
  obtain ⟨fresh, journeys, started, loaded⟩ := loads
  obtain ⟨closed, _⟩ := start_closed started
  obtain ⟨empty, _⟩ := start_consists started
  obtain ⟨placed, full, rooted, heap, builtins⟩ := image.load_rooted closed.tidy empty loaded
  rw [heap, builtins, rooted.builtins]
  apply rooted.shaped (start_shaped started)
  exact fun h o used => start_reachable started used

end Machine

def Errand.values : Errand → List Value
  | .invoke callee args => callee :: args.values
  | .main _ => []

namespace Machine

variable {m : Machine}

theorem meets_errand (strict : Prop) (errand : Errand)
    (refer : ∀ v ∈ errand.values, m.heap.Refers v) :
    Run.Meets (.within strict m) (calling nestingLimit) errand.body m fun _ _ => True := by
  cases errand with
  | main argv => exact meets_entry strict argv
  | invoke callee args =>
    have calls : (calling nestingLimit).Calls strict := callAt_calls strict _ _
    have relaxed : (calling nestingLimit).Calls False := callAt_calls False _ _
    have called := Run.meets_callValue (R := .within strict m) calls
      (Run.evaluates relaxed calls) refer
    exact (called.weaken fun _ _ _ _ => trivial).settle

/-- The machines whose objects were made by loads, runs and collections. -/
inductive Made : Machine → Prop where
  | load {settings : Settings} {world : World} {image : Image} {m : Machine} :
      Loads settings world image m → Made m
  | run {m : Machine} (errand : Errand) (budget : Nat) : Made m →
      (∀ v ∈ errand.values, m.heap.Refers v) →
      Made (after ((m.withBudget budget).run errand.body))
  | collect {m : Machine} : Made m → Made m.collect.2

theorem Closed.withBudget (closed : m.Closed) (budget : Nat) : (m.withBudget budget).Closed :=
  ⟨closed.tidy, closed.heap, closed.links, closed.patterns⟩

theorem Closed.collect (closed : m.Closed) : m.collect.2.Closed := by
  have kept : Heap.Kept m.links m.heap (m.heap.collect m.roots).2 :=
    Heap.collect_keeps closed.tidy closed.heap m.roots fun h member => by rwa [m.roots_eq]
  exact closed.kept kept

section Stages

variable (errand : Errand) (refer : ∀ v ∈ errand.values, m.heap.Refers v)
include refer

theorem stage_closed (closed : m.Closed) (budget : Nat) :
    (after ((m.withBudget budget).run errand.body)).Closed := by
  have meets := meets_errand (m := m.withBudget budget) False errand refer
  exact meets.closed (.refl (closed.withBudget budget)) False.elim

theorem stage_follows (closed : m.Closed) (budget : Nat) :
    m.Precedes (after ((m.withBudget budget).run errand.body)) := by
  have meets := meets_errand (m := m.withBudget budget) False errand refer
  obtain ⟨_, _, precedes, _⟩ := meets.steady (.refl (closed.withBudget budget)) False.elim
  exact (Precedes.same rfl rfl).trans (precedes trivial)

theorem stage_precedes (closed : m.Closed) {less more : Nat} (le : less ≤ more) :
    (after ((m.withBudget less).run errand.body)).Precedes
      (after ((m.withBudget more).run errand.body)) := by
  have meets := meets_errand (m := m.withBudget more) False errand refer
  have steady := meets.steady (.refl (closed.withBudget more)) False.elim
  exact steady.precedes trivial le

end Stages

theorem Made.closed (made : Made m) : m.Closed := by
  induction made with
  | load loads => exact loads.closed
  | run errand budget _ refer ih => exact stage_closed errand refer ih budget
  | collect _ ih => exact ih.collect

theorem Made.shaped (made : Made m) : m.heap.Shaped m.builtins := by
  induction made with
  | load loads => exact loads.shaped
  | run errand budget before refer ih =>
    exact (stage_follows errand refer before.closed budget ih).1
  | @collect m before ih =>
    apply ih.collect before.closed.tidy
    all_goals simp [roots]

end Machine

namespace Run

variable {m : Machine} {env : Env} {h : Handle} {i : Imitation} {f : Form} {name : String}

/-- A declared field that no change shadows reads as a value. -/
theorem attribute?_field (shaped : m.heap.Shaped m.builtins)
    (made : m.heap.get? h = some (.imitation i)) (used : m.heap.get? i.form = some (.form f))
    (declared : name ∈ f.matter.map (·.name)) (genus : name ≠ "genus") (length : name ≠ "length")
    (unshadowed : m.heap.change? i.form name = .ok none) :
    ∃ v, attribute? (.imitation h) name env m = .ok (some v) m := by
  obtain ⟨field, member, named⟩ := List.mem_map.mp declared
  obtain ⟨k, found⟩ : ∃ k, f.matterIndex? name = some k := by
    apply Option.isSome_iff_exists.mp
    rw [Form.matterIndex?, List.findIdx?_isSome, List.any_eq_true]
    exact ⟨field, member, by simp [named]⟩
  obtain ⟨form, there, count⟩ := shaped.suited h _ made i rfl
  cases Option.some.inj (there.symm.trans used)
  have inside : k < i.matter.size := by
    rw [← count]
    exact Form.matterIndex?_lt found
  have own : imitation h env m = .ok i m := read_imitation made
  have shape : Run.form i.form env m = .ok f m := read_form used
  have change : onHeap (·.change? i.form name) env m = .ok none m := Image.reads unshadowed
  refine ⟨i.matter[k], ?_⟩
  unfold attribute?
  rw [if_neg genus, if_neg length]
  refine (bind_ok own).trans ((bind_ok change).trans ((bind_ok shape).trans ?_))
  simp only [found]
  refine (bind_ok own).trans ?_
  simp only [Array.getElem?_eq_getElem inside]
  rfl

/-- Assigns a field of an imitation, by a way to put a value into its matter. -/
def assignField (put : Array Value → Nat → Value → Array Value) (h : Handle) (name : String)
    (new : Value) : Run Bool := do
  let f ← form (← imitation h).form
  match f.matterIndex? name with
  | none => return false
  | some i =>
    checkGuard (f.matter[i]?.bind (·.guard)) new f.name name
    editImitation h fun im => { im with matter := put im.matter i new }
    return true

theorem editImitation_congr {change other : Imitation → Imitation}
    (same : ∀ i, m.heap.get? h = some (.imitation i) → change i = other i) :
    editImitation h change env m = editImitation h other env m := by
  cases found : imitation h env m with
  | error unwind m₁ =>
    have looked : discard (imitation h) env m = .error unwind m₁ :=
      bind_error (k := fun _ => pure ()) found
    exact (bind_error looked).trans (bind_error looked).symm
  | ok i m₁ =>
    have looked : discard (imitation h) env m = .ok () m₁ := bind_ok (k := fun _ => pure ()) found
    obtain ⟨_, rfl⟩ := (onHeap_eq_ok).mp found
    refine ((bind_ok looked).trans ?_).trans (bind_ok looked).symm
    refine congrArg (fun heap => EStateM.Result.ok () { m with heap }) (Heap.modify_congr ?_)
    intro o used
    cases o with
    | imitation i => exact congrArg Object.imitation (same i used)
    | text | book | codex | form | journey | other => rfl

/-- The matter of an imitation always has the field that is assigned: it is never filled up. -/
theorem setAttribute_imitation {new : Value} (calls : env.Calls False) (closed : m.Closed)
    (shaped : m.heap.Shaped m.builtins) (held : .imitation h ∈ m.held) (heldNew : new ∈ m.held) :
    setAttribute (.imitation h) name new env m =
      assignField Array.setIfInBounds h name new env m := by
  obtain ⟨o, made, genus⟩ := (Heap.refers_imitation).mp (closed.held held)
  cases o <;> simp only [Object.genus, reduceCtorEq] at genus
  rename_i own
  obtain ⟨f, used, _⟩ := shaped.suited h _ made own rfl
  have readOwn : imitation h env m = .ok own m := read_imitation made
  have readForm : Run.form own.form env m = .ok f m := read_form used
  have opened : ∀ put, assignField put h name new env m = (match f.matterIndex? name with
      | none => return false
      | some i => do
        checkGuard (f.matter[i]?.bind (·.guard)) new f.name name
        editImitation h fun im => { im with matter := put im.matter i new }
        return true : Run Bool) env m := fun put => (bind_ok readOwn).trans (bind_ok readForm)
  change assignField setPadded h name new env m = _
  rw [opened, opened]
  cases found : f.matterIndex? name with
  | none => rfl
  | some k =>
    have meets : Meets (.within False m) env
        (checkGuard (f.matter[k]?.bind (·.guard)) new f.name name) m fun _ _ => True :=
      meets_checkGuard calls f.name name False.elim heldNew
    have outcome := meets (.refl closed) False.elim
    dsimp only
    cases checked : checkGuard (f.matter[k]?.bind (·.guard)) new f.name name env m with
    | error unwind m₁ => exact (bind_error checked).trans (bind_error checked).symm
    | ok _ m₁ =>
      rw [checked] at outcome
      obtain ⟨within, _, _, _, precedes, _⟩ := outcome
      -- The guard may be code that edits this very imitation, but the count of its fields stays.
      have still := (precedes trivial shaped).1
      refine ((bind_ok checked).trans (bind_same ?_)).trans (bind_ok checked).symm
      apply editImitation_congr
      intro im there
      rw [setPadded_inside (field_inside within held made used found still there)]

end Run

namespace Machine

variable {m : Machine}

/-- Every imitation has a value for each matter field of its form. So a declared field that is not
shadowed reads as a value, and an assignment finds the field that it writes. -/
structure Fields (m : Machine) : Prop where
  counted : ∀ h i, m.heap.get? h = some (.imitation i) →
    ∃ f, m.heap.get? i.form = some (.form f) ∧ i.matter.size = f.matter.length
  read : ∀ h i f name env, m.heap.get? h = some (.imitation i) →
    m.heap.get? i.form = some (.form f) → name ∈ f.matter.map (·.name) → name ≠ "genus" →
    name ≠ "length" → m.heap.change? i.form name = .ok none →
    ∃ v, Run.attribute? (.imitation h) name env m = .ok (some v) m
  assigned : ∀ h new name depth, .imitation h ∈ m.held → new ∈ m.held →
    Run.setAttribute (.imitation h) name new (calling depth) m =
      Run.assignField Array.setIfInBounds h name new (calling depth) m

theorem Closed.fields (closed : m.Closed) (shaped : m.heap.Shaped m.builtins) : m.Fields := by
  constructor
  · intro h i made
    obtain ⟨f, used, count⟩ := shaped.suited h _ made i rfl
    exact ⟨f, used, count.symm⟩
  · intro h i f name env made used declared genus length unshadowed
    exact Run.attribute?_field shaped made used declared genus length unshadowed
  · intro h new name depth held heldNew
    have calls : (calling depth).Calls False := callAt_calls False depth depth
    exact Run.setAttribute_imitation calls closed shaped held heldNew

/-- Objects keep their shapes along every run. What is in a slot at one stage and still is at a
later one has the genus it had; texts, journeys and pattern helpers are unchanged, a form differs in
the values of essences and in guards only, and an imitation has the form it had. Only a collection
takes an object out of its slot. At every stage imitations have the fields of their forms. -/
theorem run_permanent (made : Made m) (errand : Errand)
    (refer : ∀ v ∈ errand.values, m.heap.Refers v) {less more : Nat} (le : less ≤ more) :
    let now := after ((m.withBudget less).run errand.body)
    let later := after ((m.withBudget more).run errand.body)
    m.heap.Ages now.heap ∧ now.heap.Ages later.heap ∧
    (∀ h before after, now.heap.arena.cell? h = some before →
      later.heap.arena.cell? h = some after → after.born = before.born → before.Stays after) ∧
    now.Closed ∧ ∀ m' : Machine, m'.Closed → m'.heap = now.heap → m'.builtins = now.builtins →
      m'.Fields := by
  intro now later
  have closed : now.Closed := stage_closed errand refer made.closed less
  obtain ⟨shaped, aged⟩ := stage_follows errand refer made.closed less made.shaped
  obtain ⟨_, older⟩ := stage_precedes errand refer made.closed le shaped
  refine ⟨aged, older, ?_, closed, ?_⟩
  · intro h before after start final same
    exact older.stays closed.tidy start final same
  · intro m' closed' heap builtins
    apply closed'.fields
    rw [heap, builtins]
    exact shaped

/-- Between two fetches of the entry its form gets another guard, and the text that was the guard
gives its slot to an imitation. -/
def remakes (m : Machine) : Bool :=
  let early := (after ((m.withBudget 2).run (Run.runMain []))).heap.arena
  let late := (after ((m.withBudget 8).run (Run.runMain []))).heap.arena
  match early.cell? ⟨4⟩, late.cell? ⟨4⟩, early.cell? ⟨8⟩, late.cell? ⟨8⟩ with
  | some form, some changed, some text, some imitation =>
    changed.born = form.born && changed.object ≠ form.object && text.born < imitation.born &&
      text.object.genus = .text && imitation.object.genus = .imitation
  | _, _, _, _ => false

theorem faithful_permanent : ∃ m, Loads { heapSlots := 9 } {} faithful m ∧
    let early := after ((m.withBudget 2).run (Run.runMain []))
    let late := after ((m.withBudget 8).run (Run.runMain []))
    (∃ before after, early.heap.arena.cell? ⟨4⟩ = some before ∧
      late.heap.arena.cell? ⟨4⟩ = some after ∧ after.object ≠ before.object ∧
      before.Stays after) ∧
    (∃ before after, early.heap.arena.cell? ⟨8⟩ = some before ∧
      late.heap.arena.cell? ⟨8⟩ = some after ∧ before.born < after.born ∧
      before.object.genus = .text ∧ after.object.genus = .imitation) ∧
    late.Fields := by
  obtain ⟨m, loads, checked⟩ := loads_of { heapSlots := 9 } {} faithful remakes (by decide +kernel)
  have refer : ∀ v ∈ (Errand.main []).values, m.heap.Refers v := by simp [Errand.values]
  obtain ⟨_, _, stays, _⟩ := run_permanent (.load loads) (.main []) refer (Nat.le_add_left 2 6)
  obtain ⟨_, _, _, closed, fields⟩ := run_permanent (.load loads) (.main []) refer (Nat.le_refl 8)
  unfold remakes at checked
  dsimp only at checked
  split at checked
  · rename_i form changed text imitation start final there here
    simp only [Bool.and_eq_true, decide_eq_true_eq] at checked
    obtain ⟨⟨⟨⟨born, other⟩, later⟩, before⟩, after⟩ := checked
    refine ⟨m, loads, ⟨form, changed, start, final, other, ?_⟩, ?_, ?_⟩
    · exact stays ⟨4⟩ form changed start final born
    · exact ⟨text, imitation, there, here, later, before, after⟩
    · exact fields _ closed rfl rfl
  · contradiction

end Machine

end JourneyMachine
