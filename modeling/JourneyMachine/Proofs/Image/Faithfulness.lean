import JourneyMachine.Proofs.Closure.Loading
import JourneyMachine.Proofs.Image.Building

namespace JourneyMachine.Image

open Machine (Rooted Spares)
open Run

variable {m₀ m : Machine} {env : Env} (image : Image)

/-- The forms and journeys of an image are filled in, and its globals are defined. -/
def fill (forms journeys : List Handle) : Run Placed := do
  let placed : Placed := { forms := forms.toArray, journeys := journeys.toArray }
  fillJourneys placed (image.journeys.zip journeys)
  fillForms placed (image.forms.zip forms)
  loadGlobals placed image.globals
  return placed

def install : Run Placed := do
  let forms ← placeAll (image.forms.map fun f => .form { name := f.name })
  let journeys ← placeAll (image.journeys.map fun j => .journey { name := j.name })
  image.fill forms journeys

def receive (journeys : List Value) : Option UInt32 → Run (List Value)
  | none => return journeys
  | some index => do
    set (← ofExcept ((← get).setArgvGlobal index.toNat))
    return journeys

def appoint (placed : Placed) (argvGlobal : Option UInt32) : Option UInt32 → Run (List Value)
  | none => receive (placed.journeys.toList.map .journey) argvGlobal
  | some index => do
    let main ← ofExcept (placed.journey index)
    set (← ofExcept ((← get).setMain (.journey main)))
    receive (placed.journeys.toList.map .journey) argvGlobal

theorem link_eq : link image = image.install >>= (appoint · image.argvGlobal image.main) := by
  simp only [link, install, fill, bind_assoc, pure_bind]
  refine bind_congr fun forms => bind_congr fun journeys => ?_
  refine bind_congr fun _ => bind_congr fun _ => bind_congr fun _ => ?_
  cases image.main with
  | none => cases image.argvGlobal <;> rfl
  | some index =>
    refine bind_congr fun main => bind_congr fun m => bind_congr fun m' => bind_congr fun _ => ?_
    cases image.argvGlobal <;> rfl

section Extent

/-- Every index in the objects and the globals of an image stands for something. -/
def Resolves : Prop :=
  (∀ j ∈ image.journeys, ∀ c ∈ j.constants,
    c.Resolves image.forms.length image.journeys.length) ∧
  (∀ f ∈ image.forms, f.Resolves image.forms.length image.journeys.length) ∧
  ∀ g ∈ image.globals, g.value.Resolves image.forms.length image.journeys.length

theorem resolves_iff (forms journeys : Nat) (constants : List Constant) :
    (∀ c ∈ constants, c.Resolves forms journeys) ↔
      (∀ i ∈ (Constant.partsOf constants).filterMap Constant.journeyIndex?, i.toNat < journeys) ∧
      ∀ i ∈ (Constant.partsOf constants).filterMap Constant.formIndex?, i.toNat < forms := by
  simp only [Constant.partsOf_eq, Constant.Resolves, List.mem_filterMap, List.mem_flatMap,
    Option.mem_def]
  grind

theorem inRange_iff : image.InRange ↔ image.Resolves ∧
    (∀ i ∈ image.main.toList, i.toNat < image.journeys.length) ∧
    ∀ i ∈ image.argvGlobal, i.toNat < image.globals.length := by
  have constants := resolves_iff image.forms.length image.journeys.length image.constants
  simp only [Image.constants, List.forall_mem_append, List.forall_mem_flatMap,
    List.forall_mem_map] at constants
  simp only [InRange, Resolves, journeyIndices, formIndices, Form.Resolves, List.forall_mem_append,
    List.forall_mem_flatMap, forall_and, Image.constants]
  tauto

theorem objectCount_eq : image.objectCount =
    image.forms.length + (image.journeys.length +
      ((image.journeys.map fun j => (j.constants.map Constant.objectCount).sum).sum +
        ((image.forms.map fun f => (f.constants.map Constant.objectCount).sum).sum +
          (image.globals.map (·.value.objectCount)).sum))) := by
  have inside : (Constant.partsOf image.constants).countP Constant.takesSlot =
      (image.constants.map Constant.objectCount).sum := by
    rw [Constant.partsOf_eq, List.countP_flatMap]
    rfl
  rw [objectCount, inside]
  simp only [constants, List.map_append, List.sum_append, sum_flatMap, List.map_map,
    Function.comp_def]
  omega

end Extent

section Installing

variable {image}

theorem provides_fill {forms journeys : List Handle} (formCount : forms.length = image.forms.length)
    (journeyCount : journeys.length = image.journeys.length)
    (blankForms : ∀ h ∈ forms, ∃ o, m.heap.get? h = some o ∧ o.genus = .form)
    (blankJourneys : ∀ h ∈ journeys, ∃ o, m.heap.get? h = some o ∧ o.genus = .journey) :
    Provides m₀ env image.Resolves
      ((image.journeys.map fun j => (j.constants.map Constant.objectCount).sum).sum +
        ((image.forms.map fun f => (f.constants.map Constant.objectCount).sum).sum +
          (image.globals.map (·.value.objectCount)).sum))
      (image.fill forms journeys) (forms ++ journeys) m fun table m' new =>
      ∃ (layout : Layout) (entries : List (String × Value)), table = layout.placed ∧
        forms ++ journeys ++ new = layout.objects ∧
        m'.program = { m.program with globals := m.program.globals ++ entries.toArray } ∧
        layout.Describes image m'.heap m₀.builtins entries := by
  refine Provides.intro fun rooted => ?_
  obtain ⟨formsApart, journeysApart, apart⟩ := List.nodup_append.mp rooted.distinct
  have inside : (Placed.mk forms.toArray journeys.toArray).Inside image.forms.length
      image.journeys.length (forms ++ journeys) := ⟨formCount, journeyCount, by simp⟩
  refine Provides.bind (builds_journeys inside image.journeys journeyCount
    (fun h => List.mem_append_right forms) journeysApart blankJourneys) ?_
  rintro _ m₁ ofJourneys ⟨spares₁, carried⟩
  -- Filling the journeys leaves the forms as they were placed, and the other way round below.
  have ready : ∀ h ∈ forms, ∃ o, m₁.heap.get? h = some o ∧ o.genus = .form := by
    intro h member
    rw [spares₁.same h (List.mem_append_left _ member) fun other => apart h member h other rfl]
    exact blankForms h member
  refine Provides.intro fun rooted₁ => ?_
  have later : ∀ h ∈ ofJourneys, h ∉ forms := by
    intro h own member
    exact (List.nodup_append.mp rooted₁.distinct).2.2 h (List.mem_append_left _ member) h own rfl
  refine Provides.bind (builds_forms inside.append image.forms formCount
    (fun h member => List.mem_append_left _ (List.mem_append_left _ member)) formsApart ready) ?_
  rintro _ m₂ ofForms ⟨spares₂, filled⟩
  refine Provides.congr (Provides.bind (provides_globals inside.append.append image.globals) ?_)
    (iff_of_eq (and_true _)) (Nat.add_zero _)
  rintro _ m₃ ofGlobals ⟨same, entries, program, globals⟩
  refine .pure ⟨⟨forms, journeys, ofJourneys, ofForms, ofGlobals⟩, entries, rfl, ?_, ?_, ?_, ?_,
    globals⟩
  · simp [Layout.objects]
  · rw [program, spares₂.program, spares₁.program]
  · refine carried.imp fun j _ h there part sub kept => kept.stable ?_ fun k own => ?_
    · have member : h ∈ forms ++ journeys ++ ofJourneys := by simp [there]
      rw [same h (List.mem_append_left _ member)]
      exact spares₂.same h member fun other => apart h other h there rfl
    · have member : k ∈ forms ++ journeys ++ ofJourneys := by simp [sub k own]
      rw [same k (List.mem_append_left _ member)]
      exact spares₂.same k member (later k (sub k own))
  · refine filled.imp fun f _ h there part sub kept => kept.stable ?_ fun k own => ?_
    · exact same h (by simp [there])
    · exact same k (by simp [sub k own])

variable (image)

theorem provides_install (env : Env) (m : Machine) :
    Provides m env image.Resolves image.objectCount image.install [] m fun table m' new =>
      ∃ (layout : Layout) (entries : List (String × Value)), table = layout.placed ∧
        new = layout.objects ∧
        m'.program = { m.program with globals := m.program.globals ++ entries.toArray } ∧
        layout.Describes image m'.heap m.builtins entries := by
  rw [objectCount_eq]
  refine Provides.congr (Provides.bind (builds_placeAll .form ?_ ?_ image.forms) ?_)
    (iff_of_eq (true_and _)) rfl
  · intro f
    simp [Object.children, JourneyMachine.Form.children]
  · exact fun _ => rfl
  rintro forms m₁ _ ⟨spares₁, rfl, formCount, blankForms⟩
  refine Provides.congr (Provides.bind (builds_placeAll .journey ?_ ?_ image.journeys) ?_)
    (iff_of_eq (true_and _)) rfl
  · exact fun _ => rfl
  · exact fun _ => rfl
  rintro journeys m₂ _ ⟨spares₂, rfl, journeyCount, blankJourneys⟩
  have still : ∀ h ∈ forms, ∃ o, m₂.heap.get? h = some o ∧ o.genus = .form := by
    intro h member
    rw [spares₂.same h member List.not_mem_nil]
    exact blankForms h member
  refine (provides_fill formCount journeyCount still blankJourneys).weaken Iff.rfl rfl ?_
  rintro table m₃ new - ⟨layout, entries, same, objects, program, describes⟩
  refine ⟨layout, entries, same, ?_, ?_, describes⟩
  · rw [← objects, List.append_assoc]
  · rw [program, spares₂.program, spares₁.program]

end Installing

section Appointing

/-- The machine is replaced by what is made of it. -/
theorem replace_eq {α : Type} {f : Machine → Except Fault Machine} {k : Run α} :
    (do
      set (← ofExcept (f (← get)))
      k) env m = (ofExcept (f m) >>= fun m' => (set m' : Run PUnit) >>= fun _ => k) env m := rfl

variable {journeys : List Value} {index argvGlobal : Option UInt32}

theorem receive_ok (inside : ∀ i ∈ index, i.toNat < m.program.globals.size) :
    receive journeys index env m = .ok journeys { m with program := { m.program with
      argvGlobal := (index.map fun i => some i.toNat).getD m.program.argvGlobal } } := by
  cases index with
  | none => rfl
  | some i =>
    have found : m.setArgvGlobal i.toNat = .ok _ := if_pos (inside i rfl)
    refine (replace_eq).trans ?_
    rw [found]
    rfl

theorem receive_error (outside : ¬ ∀ i ∈ index, i.toNat < m.program.globals.size) :
    ∃ fault, receive journeys index env m = .error (.fatal fault) m := by
  cases index with
  | none => exact absurd nofun outside
  | some i =>
    have missing : m.setArgvGlobal i.toNat = .error _ := if_neg fun inside => outside (by simpa)
    refine ⟨.malformed (.globalRange i.toNat), (replace_eq).trans ?_⟩
    rw [missing]
    rfl

theorem appoint_eq {placed : Placed} (inside : ∀ i ∈ index.toList, i.toNat < placed.journeys.size) :
    appoint placed argvGlobal index env m =
      receive (placed.journeys.toList.map .journey) argvGlobal env { m with program := { m.program
        with main := (index.map (placed.journeys[·.toNat]?)).getD m.program.main } } := by
  cases index with
  | none => rfl
  | some i =>
    have bound : i.toNat < placed.journeys.size := inside i (List.mem_singleton_self i)
    have found := Array.getElem?_eq_getElem bound
    have looked : ofExcept (placed.journey i) env m = .ok placed.journeys[i.toNat] m := by
      rw [(Placed.journey_eq_ok).mpr found]
      rfl
    rw [Option.map_some, Option.getD_some, found]
    exact (bind_ok looked).trans rfl

theorem appoint_error {placed : Placed}
    (outside : ¬ ∀ i ∈ index.toList, i.toNat < placed.journeys.size) :
    ∃ fault, appoint placed argvGlobal index env m = .error (.fatal fault) m := by
  cases index with
  | none => exact absurd nofun outside
  | some i =>
    have missing : placed.journeys[i.toNat]? = none := by simpa using outside
    refine ⟨.malformed (.journeyRange i.toNat), bind_error ?_⟩
    simp only [Placed.journey, missing]
    rfl

/-- A machine with the entry and the receiver of the arguments that an image names. -/
def appointed (placed : Placed) (m : Machine) : Machine :=
  { m with program :=
    { m.program with
      main := (image.main.map (placed.journeys[·.toNat]?)).getD m.program.main
      argvGlobal := (image.argvGlobal.map fun i => some i.toNat).getD m.program.argvGlobal } }

/-- Both are found exactly if their indices are in range. -/
theorem appoint_outcome (env : Env) (m : Machine) (placed : Placed) :
    match appoint placed image.argvGlobal image.main env m with
    | .ok journeys m' => ((∀ i ∈ image.main.toList, i.toNat < placed.journeys.size) ∧
        ∀ i ∈ image.argvGlobal, i.toNat < m.program.globals.size) ∧
      journeys = placed.journeys.toList.map .journey ∧ m' = image.appointed placed m
    | .error unwind m' => unwind ≠ .halted ∧ m'.pinned = m.pinned ∧
      ¬ ((∀ i ∈ image.main.toList, i.toNat < placed.journeys.size) ∧
        ∀ i ∈ image.argvGlobal, i.toNat < m.program.globals.size) := by
  by_cases inside : ∀ i ∈ image.main.toList, i.toNat < placed.journeys.size
  · by_cases receives : ∀ i ∈ image.argvGlobal, i.toNat < m.program.globals.size
    · rw [(appoint_eq inside).trans (receive_ok receives)]
      exact ⟨⟨inside, receives⟩, rfl, rfl⟩
    · obtain ⟨fault, failed⟩ := receive_error (m := { m with program := { m.program with
        main := (image.main.map (placed.journeys[·.toNat]?)).getD m.program.main } }) receives
      rw [(appoint_eq inside).trans failed]
      exact ⟨nofun, rfl, fun both => receives both.2⟩
  · obtain ⟨fault, failed⟩ := appoint_error inside
    rw [failed]
    exact ⟨nofun, rfl, fun both => inside both.1⟩

end Appointing

section Loading

/-- Every index of an image is in range, and there is room for its objects. -/
def Fits (m : Machine) : Prop :=
  image.InRange ∧ m.reachableCount + image.objectCount ≤ m.heap.capacity

theorem link_outcome (env : Env) (tidy : m.heap.Tidy) (empty : m.program.globals = #[]) :
    match link image env m with
    | .ok journeys m' => image.Fits m ∧ m.pinned <:+ m'.pinned ∧
      ∃ layout : Layout, layout.Faithful image m journeys m'
    | .error unwind m' => unwind ≠ .halted ∧ m.pinned <:+ m'.pinned ∧ ¬ image.Fits m := by
  have outcome := image.provides_install env m (.start tidy)
  rw [link_eq]
  cases done : image.install env m with
  | error unwind m' =>
    rw [done] at outcome
    rw [bind_error done]
    obtain ⟨awake, pinned, fails⟩ := outcome
    exact ⟨awake, pinned, fun fits => fails ⟨((inRange_iff image).mp fits.1).1, fits.2⟩⟩
  | ok table m₁ =>
    rw [done] at outcome
    rw [bind_ok done]
    obtain ⟨resolves, new, count, rooted, layout, entries, rfl, rfl, program, describes⟩ := outcome
    have globals : m₁.program.globals.toList = entries := by simp [program, empty]
    have named : layout.placed.journeys.size = image.journeys.length :=
      describes.journeys.length.symm
    have defined : m₁.program.globals.size = image.globals.length := by
      rw [← Array.length_toList, globals, describes.globals.length]
    have appointed := image.appoint_outcome env m₁ layout.placed
    rw [named, defined] at appointed
    -- Everything has been built; what is left to fail is an index out of range.
    cases ended : appoint layout.placed image.argvGlobal image.main env m₁ with
    | error unwind m' =>
      rw [ended] at appointed
      obtain ⟨awake, pinned, fails⟩ := appointed
      refine ⟨awake, pinned ▸ rooted.pinned, fun fits => fails ?_⟩
      exact ((inRange_iff image).mp fits.1).2
    | ok journeys m' =>
      rw [ended] at appointed
      obtain ⟨holds, rfl, rfl⟩ := appointed
      have room := rooted.fits
      rw [List.nil_append, count] at room
      refine ⟨⟨(inRange_iff image).mpr ⟨resolves, holds⟩, room⟩, rooted.pinned, layout, ?_⟩
      exact {
        returned := rfl
        describes := globals ▸ describes
        main := by simp [Image.appointed, program, Layout.placed]
        argvGlobal := by simp [Image.appointed, program]
        distinct := rooted.distinct
        live := fun h member => by
          obtain ⟨o, used⟩ := rooted.live h member
          obtain ⟨c, found, _⟩ := (Heap.get?_eq_some).mp used
          exact (Heap.isLive_iff rooted.tidy).mpr ⟨c, found⟩
        fresh := rooted.fresh
        count }

/-- Pins are released at the end of a load. -/
theorem Layout.Faithful.unpin {layout : Layout} {journeys : List Value} {m' : Machine}
    (faithful : layout.Faithful image m journeys m') (count : Nat) :
    layout.Faithful image m journeys (m'.unpin count) :=
  ⟨faithful.returned, faithful.describes, faithful.main, faithful.argvGlobal, faithful.distinct,
    faithful.live, faithful.fresh, faithful.count⟩

/-- A load is a link whose pins are released, and a throw of it becomes a fault. -/
theorem load_outcome (env : Env) (tidy : m.heap.Tidy) (empty : m.program.globals = #[]) :
    match image.load env m with
    | .ok journeys m' => image.Fits m ∧ m'.pinned = m.pinned ∧
      ∃ layout : Layout, layout.Faithful image m journeys m'
    | .error _ m' => m'.pinned = m.pinned ∧ ¬ image.Fits m := by
  have linked := link_outcome image env tidy empty
  have released : ∀ {m' : Machine}, m.pinned <:+ m'.pinned →
      oldest m.pinned.length m'.pinned = m.pinned := by
    rintro m' ⟨newer, same⟩
    rw [← same, oldest_append]
  rw [load_eq, if_pos (by rw [empty]; rfl)]
  unfold settle
  rw [withPinned_eq, show m.pin [] = m from rfl]
  cases done : link image env m with
  | ok journeys m' =>
    rw [done] at linked
    obtain ⟨fits, pinned, layout, faithful⟩ := linked
    exact ⟨fits, released pinned, layout, faithful.unpin image _⟩
  | error unwind m' =>
    rw [done] at linked
    obtain ⟨awake, pinned, fails⟩ := linked
    cases unwind with
    | halted => exact absurd rfl awake
    | thrown => exact ⟨released pinned, fails⟩
    | fatal fault => exact ⟨released pinned, fails⟩

/-- Loading is faithful: it succeeds exactly if every index is in range and there is room for the
objects of the image beside what the machine needs, and then everything is as described. -/
theorem load_faithful (m : Machine) (env : Env) (reached : m.heap.Reached)
    (empty : m.program.globals = #[]) :
    ((∃ journeys m', image.load env m = .ok journeys m') ↔
      image.InRange ∧ m.reachableCount + image.objectCount ≤ m.heap.capacity) ∧
    (∀ journeys m', image.load env m = .ok journeys m' →
      m'.pinned = m.pinned ∧ ∃ layout : Layout, layout.Faithful image m journeys m') ∧
    ∀ unwind m', image.load env m = .error unwind m' → m'.pinned = m.pinned := by
  have outcome := load_outcome image env reached.tidy empty
  cases done : image.load env m with
  | ok journeys m' =>
    rw [done] at outcome
    refine ⟨⟨fun _ => outcome.1, fun _ => ⟨journeys, m', rfl⟩⟩, fun _ _ same => ?_, by simp⟩
    obtain ⟨rfl, rfl⟩ := EStateM.Result.ok.inj same
    exact outcome.2
  | error unwind m' =>
    rw [done] at outcome
    refine ⟨⟨by simp, fun fits => absurd fits outcome.2⟩, by simp, fun _ _ same => ?_⟩
    obtain ⟨rfl, rfl⟩ := EStateM.Result.error.inj same
    exact outcome.1

/-- A form and two journeys that refer to each other, before they are there and inside a book. -/
def ring : Image where
  forms := [
    { name := "Ring"
      essences := [{ name := "maker", value := .journey 1 }]
      matter := [{ name := "next", guard := some (.form 0) }]
      changes := [0]
      imitate := some 1 }]
  journeys := [
    { name := "turn", patterns := [{ positional := [{ name := "self" }], block :=
      { registers := 1
        constants := [.journey 1, .book [.text "gold", .journey 0, .book [.form 0]]]
        code := [29, 0] } }] },
    { name := "forge", patterns := [{ block := { constants := [.form 0, .journey 0] } }] }]
  globals := [{ name := "hoard", value := .book [.exception, .form 0] }]
  main := some 1
  argvGlobal := some 0

/-- A machine whose heap is full but for three slots, with three texts that nothing refers to. -/
def cluttered : Machine where
  heap := [.allocate (.form { name := "Exception", matter := [{ name := "msg" }] }) [],
    .allocate (.form { name := "IoError", matter := [{ name := "msg" }], parents := [⟨0⟩] }) [],
    .allocate (.text "heap exhausted") [],
    .allocate (.imitation { form := ⟨0⟩, matter := #[.text ⟨2⟩] }) [],
    .allocate (.text "dust") [], .allocate (.text "rust") [], .allocate (.text "must") []].foldl
    Heap.perform (.empty 11)
  handlers := { limit := 0 }
  builtins := { exception := ⟨0⟩, ioError := ⟨1⟩, heapExhausted := ⟨3⟩ }
  random := .seeded 7

/-- What is needed and what the image describes fill the heap to the last slot, so the heap is
collected while the first journey is filled in. -/
theorem load_faithful_ring :
    ring.InRange ∧ cluttered.reachableCount + ring.objectCount = cluttered.heap.capacity ∧
    ∃ journeys m', ring.load { call := Machine.callAt 0, depth := 0 } cluttered = .ok journeys m' ∧
      m'.pinned = [] ∧ ∃ layout : Layout, layout.Faithful ring cluttered journeys m' := by
  have reached : cluttered.heap.Reached := ⟨11, _, rfl⟩
  have faithful := load_faithful ring cluttered { call := Machine.callAt 0, depth := 0 } reached rfl
  have inside : ring.InRange := by decide +kernel
  have needed : cluttered.reachableCount = 4 :=
    (Heap.collect_counts reached.tidy cluttered.roots).1.symm.trans (by decide +kernel)
  have filled : cluttered.reachableCount + ring.objectCount = cluttered.heap.capacity := by
    rw [needed]
    decide +kernel
  obtain ⟨journeys, m', done⟩ := faithful.1.mpr ⟨inside, filled.le⟩
  exact ⟨inside, filled, journeys, m', done, faithful.2.1 journeys m' done⟩

def staffed : Machine :=
  { cluttered with program := { main := some ⟨4⟩ } }

/-- An image that names no entry leaves the one that was there before. -/
theorem load_keeps_entry :
    staffed.heap.Reached ∧ staffed.program.globals = #[] ∧ ({} : Image).main = none ∧
    ({} : Image).load { call := Machine.callAt 0, depth := 0 } staffed = .ok [] staffed ∧
    staffed.program.main ≠ none := by
  exact ⟨⟨11, _, rfl⟩, rfl, rfl, rfl, by decide⟩

end Loading

end JourneyMachine.Image
