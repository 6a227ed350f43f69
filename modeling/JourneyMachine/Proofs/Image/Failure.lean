import JourneyMachine.Proofs.Containers.Throws
import JourneyMachine.Proofs.Image.Faithfulness

/-! A load that fails. Forms and journeys are furnished without a look at the program root, globals
are then defined one after the other, and the entry and the receiver of the arguments come last. So
what a failed load leaves in the program root tells how far it came, and a global that fails edits
nothing that was made before it. -/

namespace JourneyMachine

theorem Heap.Reached.perform {heap : Heap} (reached : heap.Reached) (operation : Heap.Operation) :
    (heap.perform operation).Reached := by
  obtain ⟨capacity, operations, rfl⟩ := reached
  exact ⟨capacity, operations ++ [operation], by simp⟩

/-- The program root is as it was, and the heap was worked on as a heap is. -/
structure Machine.Furnished (m m' : Machine) : Prop where
  program : m'.program = m.program
  reached : m.heap.Reached → m'.heap.Reached

theorem Machine.Furnished.trans {m m₁ m₂ : Machine} (first : m.Furnished m₁)
    (second : m₁.Furnished m₂) : m.Furnished m₂ where
  program := second.program.trans first.program
  reached := fun reached => second.reached (first.reached reached)

namespace Run

variable {α β : Type}

/-- However a computation ends, it has only furnished the machine. -/
class Furnishes (c : Run α) : Prop where
  furnished : ∀ (env : Env) (m : Machine), m.Furnished (after (c env m))

instance furnishes_pure {a : α} : Furnishes (pure a : Run α) := ⟨fun _ _ => ⟨rfl, id⟩⟩

instance furnishes_get : Furnishes (get : Run Machine) := ⟨fun _ _ => ⟨rfl, id⟩⟩

theorem Furnishes.bind {c : Run α} {k : α → Run β} (first : Furnishes c)
    (next : ∀ a, Furnishes (k a)) : Furnishes (c >>= k) where
  furnished env m := by
    have begins := first.furnished env m
    cases same : c env m with
    | ok a m₁ =>
      rw [same] at begins
      rw [bind_ok same]
      exact begins.trans ((next a).furnished env m₁)
    | error unwind m₁ =>
      rw [same] at begins
      rwa [bind_error same]

instance furnishes_bind {c : Run α} {k : α → Run β} [first : Furnishes c]
    [next : ∀ a, Furnishes (k a)] : Furnishes (c >>= k) := first.bind next

instance furnishes_discard {c : Run α} [inner : Furnishes c] : Furnishes (discard c) :=
  inferInstanceAs (Furnishes (c >>= fun _ => pure ()))

instance furnishes_ofExcept {x : Except Fault α} : Furnishes (ofExcept x) := by
  cases x <;> exact ⟨fun _ _ => ⟨rfl, id⟩⟩

instance furnishes_onHeap {f : Heap → Except Fault α} : Furnishes (onHeap f) where
  furnished env m := by
    unfold onHeap
    cases f m.heap <;> exact ⟨rfl, id⟩

instance furnishes_update {h : Handle} {f : Object → Object} : Furnishes (update h f) :=
  ⟨fun _ _ => ⟨rfl, fun reached => reached.perform (.edit h f)⟩⟩

instance furnishes_editBook {h : Handle} {f : Array Value → Array Value} :
    Furnishes (editBook h f) := by
  unfold editBook book
  infer_instance

instance furnishes_editForm {h : Handle} {f : JourneyMachine.Form → JourneyMachine.Form} :
    Furnishes (editForm h f) := by
  unfold editForm form
  infer_instance

instance furnishes_allocate {object : Object} : Furnishes (allocate object) where
  furnished env m := by
    have reached := fun before : m.heap.Reached => before.perform (.allocate object m.roots)
    cases done : m.heap.allocate object m.roots with
    | mk result heap =>
      simp only [Heap.perform, done] at reached
      cases result with
      | ok h =>
        rw [Image.allocate_ok done]
        exact ⟨rfl, reached⟩
      | error rejected =>
        rw [Image.allocate_error done]
        exact ⟨rfl, reached⟩

theorem Furnishes.mapM {f : α → Run β} (as : List α) (each : ∀ a, Furnishes (f a)) :
    Furnishes (as.mapM f) := by
  induction as with
  | nil => exact furnishes_pure
  | cons a as ih =>
    rw [List.mapM_cons]
    infer_instance

theorem Furnishes.forM {f : α → Run PUnit} (as : List α) (each : ∀ a, Furnishes (f a)) :
    Furnishes (as.forM f) := by
  induction as with
  | nil => exact furnishes_pure
  | cons a as ih =>
    change Furnishes (f a >>= fun _ => as.forM f)
    infer_instance

end Run

namespace Image

open Run

section Furnishing

variable {table : Placed}

instance furnishes_place {object : Object} : Furnishes (place object) := by
  unfold place
  exact (furnishes_allocate).bind fun _ => .bind ⟨fun _ _ => ⟨rfl, id⟩⟩ fun _ => furnishes_pure

mutual

theorem furnishes_loadConstant (c : Constant) : Furnishes (loadConstant table c) := by
  cases c <;> unfold loadConstant
  case book pages =>
    have := fun target => furnishes_loadPages target pages
    infer_instance
  all_goals infer_instance

theorem furnishes_loadPages (target : Handle) (pages : List Constant) :
    Furnishes (loadPages table target pages) := by
  cases pages <;> unfold loadPages
  case nil => infer_instance
  case cons page pages =>
    have := furnishes_loadConstant page
    have := furnishes_loadPages target pages
    infer_instance

end

instance furnishes_constant {c : Constant} : Furnishes (loadConstant table c) :=
  furnishes_loadConstant c

instance furnishes_loadOptional {c : Option Constant} : Furnishes (loadOptional table c) := by
  cases c <;> unfold loadOptional <;> infer_instance

instance furnishes_loadConstants {constants : List Constant} :
    Furnishes (loadConstants table constants) := by
  rw [loadConstants_eq]
  exact .mapM constants furnishes_loadConstant

instance furnishes_loadPatterns {patterns : List Pattern} :
    Furnishes (loadPatterns table patterns) := by
  rw [loadPatterns_eq]
  exact .mapM patterns fun p => by
    unfold loadPattern
    infer_instance

instance furnishes_loadEssences {essences : List Essence} :
    Furnishes (loadEssences table essences) := by
  induction essences <;> unfold loadEssences <;> infer_instance

instance furnishes_loadMatter {matter : List Matter} : Furnishes (loadMatter table matter) := by
  induction matter <;> unfold loadMatter <;> infer_instance

instance furnishes_loadForm {f : Form} : Furnishes (loadForm table f) := by
  have journeys := fun indices : List UInt32 =>
    Furnishes.mapM indices fun i => furnishes_ofExcept (x := table.journey i)
  have forms := fun indices : List UInt32 =>
    Furnishes.mapM indices fun i => furnishes_ofExcept (x := table.form i)
  have imitate : Furnishes (f.imitate.mapM fun i => ofExcept (table.journey i)) := by
    cases f.imitate with
    | none => exact furnishes_pure
    | some i => exact (furnishes_ofExcept).bind fun _ => furnishes_pure
  unfold loadForm
  infer_instance

def furnish (image : Image) : Run Placed := do
  let forms ← placeAll (image.forms.map fun f => .form { name := f.name })
  let journeys ← placeAll (image.journeys.map fun j => .journey { name := j.name })
  let placed : Placed := { forms := forms.toArray, journeys := journeys.toArray }
  fillJourneys placed (image.journeys.zip journeys)
  fillForms placed (image.forms.zip forms)
  return placed

instance furnishes_furnish {image : Image} : Furnishes image.furnish := by
  have places := fun objects => Furnishes.mapM (f := place) objects fun _ => furnishes_place
  have journeys := fun (table : Placed) (pairs : List (Journey × Handle)) =>
    Furnishes.forM (f := fun p => fillJourney table p.1 p.2) pairs fun _ => by
      unfold fillJourney journey
      infer_instance
  have forms := fun (table : Placed) (pairs : List (Form × Handle)) =>
    Furnishes.forM (f := fun p => fillForm table p.1 p.2) pairs fun _ => by
      unfold fillForm
      infer_instance
  simp only [furnish, placeAll_eq, fillJourneys_eq, fillForms_eq]
  infer_instance

theorem install_eq (image : Image) : image.install = do
    let placed ← image.furnish
    loadGlobals placed image.globals
    return placed := by
  simp only [install, fill, furnish, bind_assoc, pure_bind]

end Furnishing

section Keeping

variable {α β : Type} {m₀ : Machine} {env : Env} {table : Placed}

/-- What is in the root slots of a machine is there. -/
def Spared (m₀ m : Machine) : Prop :=
  ∀ h ∈ m₀.roots, ∀ o, m₀.heap.get? h = some o → m.heap.get? h = some o

/-- What is in the root slots of a machine is there, and they still are roots. -/
structure Kept (m₀ m : Machine) : Prop where
  spared : Spared m₀ m
  roots : ∀ h ∈ m₀.roots, h ∈ m.roots
  tidy : m.heap.Tidy

def New (m₀ : Machine) (h : Handle) : Prop := h ∈ m₀.roots → m₀.heap.get? h = none

/-- A computation spares the root slots of a machine, also where it fails. -/
def Keeps (m₀ : Machine) (env : Env) (c : Run α) (Q : α → Prop) : Prop :=
  ∀ m, Kept m₀ m →
    match c env m with
    | .ok a m' => Kept m₀ m' ∧ Q a
    | .error _ m' => Spared m₀ m'

theorem Keeps.bind {c : Run α} {k : α → Run β} {Q : α → Prop} {P : β → Prop}
    (first : Keeps m₀ env c Q) (next : ∀ a, Q a → Keeps m₀ env (k a) P) :
    Keeps m₀ env (c >>= k) P := by
  intro m kept
  have outcome := first m kept
  cases done : c env m with
  | ok a m₁ =>
    rw [done] at outcome
    rw [bind_ok done]
    exact next a outcome.2 m₁ outcome.1
  | error unwind m₁ =>
    rw [done] at outcome
    rwa [bind_error done]

theorem Keeps.pure {a : α} {Q : α → Prop} (holds : Q a) : Keeps m₀ env (Pure.pure a) Q :=
  fun _ kept => ⟨kept, holds⟩

theorem Keeps.ofExcept {x : Except Fault α} : Keeps m₀ env (ofExcept x) fun _ => True := by
  intro m kept
  cases x with
  | ok a => exact ⟨kept, trivial⟩
  | error fault => exact kept.spared

theorem Keeps.onHeap {f : Heap → Except Fault α} : Keeps m₀ env (onHeap f) fun _ => True := by
  intro m kept
  unfold Run.onHeap
  cases f m.heap with
  | ok a => exact ⟨kept, trivial⟩
  | error fault => exact kept.spared

theorem Keeps.get : Keeps m₀ env (MonadState.get : Run Machine) fun _ => True :=
  fun _ kept => ⟨kept, trivial⟩

theorem keeps_place (object : Object) : Keeps m₀ env (place object) (New m₀) := by
  intro m kept
  have live : ∀ h ∈ m₀.roots, ∀ o, m₀.heap.get? h = some o → m.heap.Reachable m.roots h :=
    fun h member o used => .root (kept.roots h member) (kept.spared h member o used)
  have retained : ∀ {m' : Machine}, m.heap.Retains m.roots m'.heap → Spared m₀ m' :=
    fun retains h member o used =>
      (retains.kept h (live h member o used)).trans (kept.spared h member o used)
  rcases allocate_cases kept.tidy object env with ⟨h, m', made, allocated⟩ | ⟨m', full, refused⟩
  · have retains := allocated.retains.mono fun _ => List.mem_append_left _
    have placed : place object env m =
        .ok h (m'.pin (Value.ofHandle? object.genus h).toList) := bind_ok made
    rw [placed]
    refine ⟨⟨retained retains, fun k member => roots_pin k ?_, retains.tidy⟩, fun member => ?_⟩
    · exact allocated.roots_eq ▸ kept.roots k member
    · cases used : m₀.heap.get? h with
      | none => rfl
      | some o => exact absurd rfl (allocated.fresh_of_reachable (live h member o used))
  · have failed : place object env m = .error .thrown m' := bind_error full
    rw [failed]
    exact retained refused.retains

/-- A book that is new may be edited. -/
theorem keeps_editBook {target : Handle} (new : New m₀ target) (f : Array Value → Array Value) :
    Keeps m₀ env (editBook target f) fun _ => True := by
  have looks : Keeps m₀ env (discard (book target) : Run PUnit) fun _ => True :=
    Keeps.bind (k := fun _ => Pure.pure PUnit.unit) Keeps.onHeap fun _ _ => .pure trivial
  refine looks.bind fun _ _ m kept => ?_
  have others : ∀ h ∈ m₀.roots, ∀ o, m₀.heap.get? h = some o → h ≠ target := by
    rintro h member o used rfl
    cases (new member).symm.trans used
  refine ⟨⟨fun h member o used => ?_, kept.roots, kept.tidy.modify target _⟩, trivial⟩
  show (m.heap.modify target _).get? h = _
  rw [Heap.get?_modify, if_neg (others h member o used), kept.spared h member o used]

mutual

theorem keeps_loadConstant (c : Constant) :
    Keeps m₀ env (loadConstant table c) fun _ => True := by
  cases c <;> unfold loadConstant
  case ni | veracity | numeral => exact .pure trivial
  case text => exact (keeps_place _).bind fun _ _ => .pure trivial
  case journey | form => exact Keeps.ofExcept.bind fun _ _ => .pure trivial
  case exception | ioError => exact Keeps.get.bind fun _ _ => .pure trivial
  case book pages =>
    exact (keeps_place _).bind fun target new =>
      (keeps_loadPages new pages).bind fun _ _ => .pure trivial

theorem keeps_loadPages {target : Handle} (new : New m₀ target) (pages : List Constant) :
    Keeps m₀ env (loadPages table target pages) fun _ => True := by
  cases pages <;> unfold loadPages
  case nil => exact .pure trivial
  case cons page pages =>
    exact (keeps_loadConstant page).bind fun _ _ =>
      (keeps_editBook new _).bind fun _ _ => keeps_loadPages new pages

end

end Keeping

section Stopping

variable {table : Placed} {m₀ m : Machine} {env : Env} (image : Image)

/-- What defining globals leaves: some of them from the first on, namely as many as can be defined
when there are no others. The one that fails spares what is rooted by then. -/
structure Stops (env : Env) (table : Placed) (globals : List Global) (m m' : Machine)
    (entries : List (String × Value)) : Prop where
  program : m'.program = { m.program with globals := m.program.globals ++ entries.toArray }
  reached : m.heap.Reached → m'.heap.Reached
  within : entries.length ≤ globals.length
  spared : ∀ m₁, loadGlobals table (globals.take entries.length) env m = .ok () m₁ →
    m₁.program = m'.program ∧ (m₁.heap.Tidy → Spared m₁ m')
  count : ∀ k ≤ globals.length,
    (∃ m'', loadGlobals table (globals.take k) env m = .ok () m'') ↔ k ≤ entries.length

theorem loadGlobals_nil : loadGlobals table [] env m = .ok () m := rfl

theorem loadGlobals_stops (globals : List Global) (m : Machine) :
    ∃ entries, Stops env table globals m (after (loadGlobals table globals env m)) entries := by
  -- On the globals: one that fails defines nothing, and one that is made heads what the rest
  -- leaves.
  induction globals generalizing m with
  | nil =>
    rw [loadGlobals_nil]
    refine ⟨[], by simp [after], id, Nat.le_refl _, fun m₁ same => ?_, by simp [loadGlobals_nil]⟩
    cases same
    exact ⟨rfl, fun _ _ _ _ => id⟩
  | cons g globals ih =>
    have furnishes : Furnishes (loadConstant table g.value) := furnishes_loadConstant g.value
    have first := furnishes.furnished env m
    cases made : loadConstant table g.value env m with
    | error unwind m₁ =>
      rw [made] at first
      have failed : ∀ rest, loadGlobals table (g :: rest) env m = .error unwind m₁ := fun rest => by
        rw [loadGlobals]
        exact bind_error made
      refine ⟨[], ?_, ?_, Nat.zero_le _, fun m' same => ?_, fun k le => ?_⟩
      · rw [failed, Array.append_empty]
        exact first.program
      · rw [failed]
        exact first.reached
      · cases same
        rw [failed]
        refine ⟨first.program.symm, fun tidy => ?_⟩
        have kept : Kept m m := ⟨fun _ _ _ => id, fun _ => id, tidy⟩
        have keeps : Keeps m env (loadConstant table g.value) fun _ => True :=
          keeps_loadConstant g.value
        have spared := keeps m kept
        rwa [made] at spared
      · cases k <;> simp [failed, loadGlobals_nil]
    | ok v m₁ =>
      rw [made] at first
      have program : m₁.program = m.program := first.program
      have goes : ∀ rest, loadGlobals table (g :: rest) env m =
          loadGlobals table rest env (m₁.defineGlobal g.name v) := fun rest => by
        rw [loadGlobals]
        exact bind_ok made
      obtain ⟨entries, stops⟩ := ih (m₁.defineGlobal g.name v)
      refine ⟨(g.name, v) :: entries, ?_, ?_, ?_, fun m' same => ?_, fun k le => ?_⟩
      · rw [goes, stops.program]
        simp only [Machine.defineGlobal, Program.define, program]
        congr 1
        exact Array.toList_inj.mp (by simp)
      · rw [goes]
        exact fun reached => stops.reached (first.reached reached)
      · exact Nat.succ_le_succ stops.within
      · rw [List.length_cons, List.take_succ_cons, goes] at same
        rw [goes]
        exact stops.spared m' same
      · cases k with
        | zero => simp [loadGlobals_nil]
        | succ k =>
          rw [List.take_succ_cons, goes, stops.count k (by simpa using le)]
          simp

/-- The image up to one of its globals, without an entry and without a receiver of arguments. -/
def upTo (k : Nat) : Image :=
  { image with globals := image.globals.take k, main := none, argvGlobal := none }

theorem fits_upTo (env : Env) (tidy : m.heap.Tidy) (k : Nat) :
    (image.upTo k).Fits m ↔ ∃ table m', (image.upTo k).install env m = .ok table m' := by
  have outcome := (image.upTo k).provides_install env m (.start tidy)
  have range : (image.upTo k).InRange ↔ (image.upTo k).Resolves := by
    rw [inRange_iff]
    simp [upTo]
  rw [Fits, range]
  cases done : (image.upTo k).install env m with
  | ok table m' =>
    rw [done] at outcome
    obtain ⟨resolves, new, count, rooted, _⟩ := outcome
    have room := rooted.fits
    rw [List.nil_append, count] at room
    exact ⟨fun _ => ⟨table, m', rfl⟩, fun _ => ⟨resolves, room⟩⟩
  | error unwind m' =>
    rw [done] at outcome
    exact ⟨fun fits => absurd fits outcome.2.2, fun ⟨_, _, same⟩ => by contradiction⟩

/-- What a failed load leaves of the program root. Where it leaves globals, they and everything that
they can refer to are what the image describes up to them. -/
structure Abandoned (m m' : Machine) : Prop where
  described : m'.program.globals ≠ #[] → ∃ layout : Layout, layout.objects.Nodup ∧
    layout.Describes (image.upTo m'.program.globals.size) m'.heap m.builtins
      m'.program.globals.toList
  defined : ∀ k, 0 < k → k ≤ image.globals.length →
    (k ≤ m'.program.globals.size ↔ (image.upTo k).Fits m)
  argvGlobal : m'.program.argvGlobal = m.program.argvGlobal
  main : m'.program.main = m.program.main ∨ m'.program.globals.size = image.globals.length ∧
    (∃ i ∈ image.main, i.toNat < image.journeys.length) ∧
    ∃ i ∈ image.argvGlobal, image.globals.length ≤ i.toNat

variable {image}

theorem Abandoned.of_entries {m' : Machine} (entries : List (String × Value))
    (globals : m'.program.globals = entries.toArray)
    (described : entries ≠ [] → ∃ layout : Layout, layout.objects.Nodup ∧
      layout.Describes (image.upTo entries.length) m'.heap m.builtins entries)
    (count : ∀ k, 0 < k → k ≤ image.globals.length →
      (k ≤ entries.length ↔ (image.upTo k).Fits m))
    (argvGlobal : m'.program.argvGlobal = m.program.argvGlobal)
    (main : m'.program.main = m.program.main ∨ entries.length = image.globals.length ∧
      (∃ i ∈ image.main, i.toNat < image.journeys.length) ∧
      ∃ i ∈ image.argvGlobal, image.globals.length ≤ i.toNat) : image.Abandoned m m' := by
  constructor
  · simpa [globals] using described
  · simpa only [globals, List.size_toArray] using count
  · exact argvGlobal
  · simpa only [globals, List.size_toArray] using main

/-- If an entry or a receiver cannot be chosen, at most the entry is another one. -/
theorem appoint_fails {m' : Machine} {unwind : Unwind}
    (failed : appoint table image.argvGlobal image.main env m = .error unwind m') :
    m'.heap = m.heap ∧ m'.program.globals = m.program.globals ∧
    m'.program.argvGlobal = m.program.argvGlobal ∧
    (m'.program.main = m.program.main ∨ (∃ i ∈ image.main, i.toNat < table.journeys.size) ∧
      ∃ i ∈ image.argvGlobal, m.program.globals.size ≤ i.toNat) := by
  by_cases inside : ∀ i ∈ image.main.toList, i.toNat < table.journeys.size
  · by_cases receives : ∀ i ∈ image.argvGlobal, i.toNat < m.program.globals.size
    · cases failed.symm.trans ((appoint_eq inside).trans (receive_ok receives))
    · obtain ⟨fault, same⟩ := receive_error (m := { m with program := { m.program with
        main := (image.main.map (table.journeys[·.toNat]?)).getD m.program.main } }) receives
      cases failed.symm.trans ((appoint_eq inside).trans same)
      refine ⟨rfl, rfl, rfl, ?_⟩
      cases entry : image.main with
      | none => exact .inl rfl
      | some i =>
        rw [entry] at inside
        exact .inr ⟨⟨i, rfl, inside i (List.mem_singleton_self i)⟩, by simpa using receives⟩
  · obtain ⟨fault, same⟩ := appoint_error inside
    cases failed.symm.trans same
    exact ⟨rfl, rfl, rfl, .inl rfl⟩

theorem furnish_abandons {m' : Machine} {unwind : Unwind} (tidy : m.heap.Tidy)
    (empty : m.program.globals = #[]) (failed : image.furnish env m = .error unwind m') :
    image.install env m = .error unwind m' ∧ image.Abandoned m m' ∧
    (m.heap.Reached → m'.heap.Reached) := by
  have furnishes : Furnishes image.furnish := furnishes_furnish
  have first := furnishes.furnished env m
  rw [failed] at first
  have never : ∀ k, (image.upTo k).install env m = .error unwind m' := fun k => by
    rw [install_eq]
    exact bind_error failed
  refine ⟨?_, .of_entries [] ?_ (absurd rfl) (fun k positive _ => ?_) ?_ (.inl ?_), first.reached⟩
  · rw [install_eq]
    exact bind_error failed
  · exact (congrArg Program.globals first.program).trans empty
  · simp only [fits_upTo image env tidy, never]
    simpa using Nat.ne_of_gt positive
  · exact congrArg Program.argvGlobal first.program
  · exact congrArg Program.main first.program

/-- Objects are made without a look at the globals, so an image with fewer globals defines them over
the same objects. -/
theorem install_furnished (image : Image) {m₁ : Machine} (made : image.furnish env m = .ok table m₁) :
    image.install env m = (do
      loadGlobals table image.globals
      return table) env m₁ := by
  rw [install_eq]
  exact bind_ok made

theorem Stops.count_fits {m₁ m' : Machine} {entries : List (String × Value)} (tidy : m.heap.Tidy)
    (made : image.furnish env m = .ok table m₁) (stops : Stops env table image.globals m₁ m' entries)
    (k : Nat) (le : k ≤ image.globals.length) :
    k ≤ entries.length ↔ (image.upTo k).Fits m := by
  have shorter := (image.upTo k).install_furnished made
  rw [fits_upTo image env tidy, ← stops.count k le, shorter]
  cases ended : loadGlobals table (image.globals.take k) env m₁ with
  | ok _ m₂ => exact iff_of_true ⟨m₂, rfl⟩ ⟨table, m₂, bind_ok ended⟩
  | error unwind m₂ =>
    have failed : (do
        loadGlobals table (image.globals.take k)
        return table) env m₁ = .error unwind m₂ := bind_error ended
    exact iff_of_false (by simp) fun ⟨_, _, done⟩ => by cases failed.symm.trans done

/-- What the globals in front of the one that fails need is spared by what fails. -/
theorem Stops.described {m₁ m' : Machine} {entries : List (String × Value)} (tidy : m.heap.Tidy)
    (empty : m.program.globals = #[]) (made : image.furnish env m = .ok table m₁)
    (stops : Stops env table image.globals m₁ m' entries)
    (globals : m'.program.globals = entries.toArray) :
    ∃ layout : Layout, layout.objects.Nodup ∧
      layout.Describes (image.upTo entries.length) m'.heap m.builtins entries := by
  obtain ⟨m₂, defined⟩ := (stops.count _ stops.within).mpr (Nat.le_refl _)
  have installed : (image.upTo entries.length).install env m = .ok table m₂ :=
    ((image.upTo entries.length).install_furnished made).trans (bind_ok defined)
  have outcome := (image.upTo entries.length).provides_install env m (.start tidy)
  rw [installed] at outcome
  obtain ⟨_, _, _, rooted, layout, entries', _, rfl, before, describes⟩ := outcome
  obtain ⟨same, spared⟩ := stops.spared m₂ defined
  have equal : entries' = entries := by
    have left := (congrArg Program.globals (before.symm.trans same)).trans globals
    simpa [empty] using left
  subst equal
  refine ⟨layout, rooted.distinct, describes.stable fun h member => ?_⟩
  obtain ⟨o, used⟩ := rooted.live h member
  rw [used]
  exact spared rooted.tidy h ((rooted.roots h).mpr (.inr member)) o used

theorem link_abandons {m' : Machine} {unwind : Unwind} (tidy : m.heap.Tidy)
    (empty : m.program.globals = #[]) (failed : link image env m = .error unwind m') :
    image.Abandoned m m' ∧ (m.heap.Reached → m'.heap.Reached) := by
  have furnishes : Furnishes image.furnish := furnishes_furnish
  have first := furnishes.furnished env m
  have installs := image.provides_install env m (.start tidy)
  rw [link_eq] at failed
  -- Linking fails while the objects are placed, at a global, or after all globals.
  cases made : image.furnish env m with
  | error unwind m₁ =>
    obtain ⟨stopped, abandoned⟩ := furnish_abandons tidy empty made
    rw [bind_error stopped] at failed
    cases failed
    exact abandoned
  | ok table m₁ =>
    rw [made] at first
    obtain ⟨entries, stops⟩ : ∃ entries, Stops env table image.globals m₁
        (after (loadGlobals table image.globals env m₁)) entries := loadGlobals_stops ..
    have root := stops.program
    rw [show m₁.program = m.program from first.program, empty, Array.empty_append] at root
    have described := stops.described tidy empty made (congrArg Program.globals root)
    have reached := fun before => stops.reached (first.reached before)
    have count := fun k (_ : 0 < k) => stops.count_fits tidy made k
    cases ended : loadGlobals table image.globals env m₁ with
    | error unwind m₂ =>
      rw [ended] at root reached described
      have stopped : image.install env m = .error unwind m₂ :=
        (image.install_furnished made).trans (bind_error ended)
      rw [bind_error stopped] at failed
      cases failed
      have root : m'.program = _ := root
      refine ⟨.of_entries entries ?_ (fun _ => described) count ?_ (.inl ?_), reached⟩
      all_goals rw [root]
    | ok _ m₂ =>
      rw [ended] at root reached described
      have root : m₂.program = _ := root
      have installed : image.install env m = .ok table m₂ :=
        (image.install_furnished made).trans (bind_ok ended)
      have all : entries.length = image.globals.length := by
        have complete := (stops.count _ (Nat.le_refl _)).mp ⟨m₂, by rw [List.take_length, ended]⟩
        exact Nat.le_antisymm stops.within complete
      rw [installed] at installs
      obtain ⟨_, _, _, _, layout, _, rfl, _, _, describes⟩ := installs
      rw [bind_ok installed] at failed
      obtain ⟨heap, globals, argvGlobal, main⟩ := appoint_fails failed
      rw [root] at globals argvGlobal main
      have named : layout.placed.journeys.size = image.journeys.length :=
        describes.journeys.length.symm
      rw [named, List.size_toArray, all] at main
      constructor
      · exact .of_entries entries globals (fun _ => heap ▸ described) count argvGlobal
          (main.imp_right fun both => ⟨all, both⟩)
      · exact fun before => heap ▸ reached before

theorem Abandoned.of_program {m₁ m₂ : Machine} (abandoned : image.Abandoned m m₁)
    (same : m₂.program = m₁.program) (heap : m₂.heap = m₁.heap) : image.Abandoned m m₂ := by
  obtain ⟨described, defined, argvGlobal, main⟩ := abandoned
  rw [← same] at described defined argvGlobal main
  exact ⟨heap ▸ described, defined, argvGlobal, main⟩

/-- The end of a load takes pins and the exception in flight, and leaves the root and the heap. -/
theorem load_abandons {m' : Machine} {unwind : Unwind} (reached : m.heap.Reached)
    (empty : m.program.globals = #[]) (failed : image.load env m = .error unwind m') :
    image.Abandoned m m' ∧ m'.heap.Reached := by
  rw [load_eq, if_pos (by rw [empty]; rfl)] at failed
  unfold settle at failed
  rw [withPinned_eq, show m.pin [] = m from rfl] at failed
  cases done : link image env m with
  | ok journeys m₁ =>
    rw [done] at failed
    contradiction
  | error ended m₁ =>
    rw [done] at failed
    obtain ⟨abandoned, still⟩ := link_abandons reached.tidy empty done
    cases ended <;> cases failed <;> exact ⟨abandoned.of_program rfl rfl, still reached⟩

theorem loads_iff (image : Image) (tidy : m.heap.Tidy) (empty : m.program.globals = #[]) :
    (∃ journeys m', image.load env m = .ok journeys m') ↔ image.Fits m := by
  have outcome := image.load_outcome env tidy empty
  cases done : image.load env m with
  | ok journeys m' =>
    rw [done] at outcome
    exact ⟨fun _ => outcome.1, fun _ => ⟨journeys, m', rfl⟩⟩
  | error unwind m' =>
    rw [done] at outcome
    exact ⟨fun ⟨_, _, same⟩ => by contradiction, fun fits => absurd fits outcome.2⟩

theorem Abandoned.untouched {m' : Machine} (abandoned : image.Abandoned m m')
    (empty : m.program.globals = #[]) (some_global : image.globals ≠ [])
    (early : ¬ (image.upTo 1).Fits m) : m'.program = m.program := by
  have positive : 1 ≤ image.globals.length := List.length_pos_iff.mpr some_global
  have none_defined : ¬ 1 ≤ m'.program.globals.size := fun there =>
    early ((abandoned.defined 1 Nat.one_pos positive).mp there)
  have globals : m'.program.globals = #[] := Array.eq_empty_of_size_eq_zero (by omega)
  have main : m'.program.main = m.program.main := by
    rcases abandoned.main with same | ⟨all, _⟩
    · exact same
    · omega
  have argvGlobal := abandoned.argvGlobal
  cases before : m.program
  cases after : m'.program
  simp_all

variable (image)

/-- A load that fails leaves the receiver of the arguments as it was. It leaves the globals in front
of the place where it failed, with their values, and another entry only if nothing but the receiver
was out of range. Unless it came as far as the first global, the root is untouched; and another
image can be loaded exactly if no global was left behind. -/
theorem failed_load (m : Machine) (env : Env) (reached : m.heap.Reached)
    (empty : m.program.globals = #[]) (unwind : Unwind) (m' : Machine)
    (failed : image.load env m = .error unwind m') :
    image.Abandoned m m' ∧
    (image.globals ≠ [] → ¬ (image.upTo 1).Fits m → m'.program = m.program) ∧
    ∀ (other : Image) (env' : Env),
      (m'.program.globals = #[] →
        ((∃ journeys m'', other.load env' m' = .ok journeys m'') ↔ other.Fits m')) ∧
      (m'.program.globals ≠ #[] →
        other.load env' m' = .error (.fatal (.malformed .programNotEmpty)) m') := by
  obtain ⟨abandoned, still⟩ := load_abandons reached empty failed
  refine ⟨abandoned, abandoned.untouched empty, fun other env' => ⟨fun clean => ?_, fun left => ?_⟩⟩
  · exact other.loads_iff still.tidy clean
  · have filled : ¬ m'.program.globals.size = 0 := fun none =>
      left (Array.eq_empty_of_size_eq_zero none)
    rw [load_eq, if_neg filled]
    rfl

end Stopping

/-- An image with a global whose entry is no journey, and the same image without an entry. -/
def hasty : Image where
  globals := [{ name := "early", value := .numeral 1 }]
  main := some 0

def mended : Image := { hasty with main := none }

/-- What the first load leaves behind keeps out the second, which would have loaded before. -/
theorem hasty_stays :
    cluttered.heap.Reached ∧ cluttered.program.globals = #[] ∧
    ∃ fault m', hasty.load { call := Machine.callAt 0, depth := 0 } cluttered =
        .error (.fatal fault) m' ∧
      m'.program.globals = #[("early", .numeral 1)] ∧
      (∃ m'', mended.load { call := Machine.callAt 0, depth := 0 } cluttered = .ok [] m'') ∧
      mended.load { call := Machine.callAt 0, depth := 0 } m' =
        .error (.fatal (.malformed .programNotEmpty)) m' :=
  ⟨⟨11, _, rfl⟩, rfl, .malformed (.journeyRange 0),
    { cluttered with program := { globals := #[("early", .numeral 1)] } }, rfl, rfl, ⟨_, rfl⟩, rfl⟩

def greedy : Image where
  globals := [{ name := "early", value := .numeral 1 },
    { name := "late", value := .book (List.replicate 7 (.text "more")) }]

/-- The heap is exhausted in the last text of the book; the first global stays. -/
theorem greedy_abandoned :
    cluttered.heap.Reached ∧ cluttered.program.globals = #[] ∧
    ∃ unwind m', greedy.load { call := Machine.callAt 0, depth := 0 } cluttered =
        .error unwind m' ∧
      greedy.Abandoned cluttered m' ∧
      mended.load { call := Machine.callAt 0, depth := 0 } m' =
        .error (.fatal (.malformed .programNotEmpty)) m' := by
  have reached : cluttered.heap.Reached := ⟨11, _, rfl⟩
  have needed : cluttered.reachableCount = 4 :=
    (Heap.collect_counts reached.tidy cluttered.roots).1.symm.trans (by decide +kernel)
  have short : ¬ greedy.Fits cluttered := by
    rw [Fits, needed]
    decide +kernel
  have room : (greedy.upTo 1).Fits cluttered := by
    rw [Fits, needed]
    decide +kernel
  refine ⟨reached, rfl, ?_⟩
  cases done : greedy.load { call := Machine.callAt 0, depth := 0 } cluttered with
  | ok journeys m' =>
    exact absurd ((greedy.loads_iff reached.tidy rfl).mp ⟨journeys, m', done⟩) short
  | error unwind m' =>
    obtain ⟨abandoned, _, again⟩ := greedy.failed_load cluttered _ reached rfl unwind m' done
    have early : 1 ≤ m'.program.globals.size :=
      (abandoned.defined 1 Nat.one_pos (by decide)).mpr room
    refine ⟨unwind, m', rfl, abandoned, (again mended _).2 fun empty => ?_⟩
    simp [empty] at early

end Image

end JourneyMachine
