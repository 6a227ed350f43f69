import JourneyMachine.Proofs.Closure.Loading

/-! Runs of the entry. A fresh machine is closed, a load keeps it so, and so does every run of the
entry journey, however far it gets: the budget stops a run at any of its fetches, so what holds on
every budget holds at every fetch. A closed machine can still come to a slot that was swept, by a
guard that only a computation under way remembers; where no guard is dropped, none does. -/

namespace JourneyMachine

open Host (Platform Surroundings World)

namespace Heap

/-- A closed heap in which these values refer to what they announce. -/
structure Sound (values : List Value) (heap : Heap) : Prop where
  tidy : heap.Tidy
  closed : heap.Closed
  refer : ∀ v ∈ values, heap.Refers v

theorem Sound.empty (capacity : Nat) : Sound [] (.empty capacity) where
  tidy := tidy_empty capacity
  closed h o used := by
    obtain ⟨c, found, _⟩ := (get?_eq_some).mp used
    cases (Arena.cell?_empty capacity h).symm.trans found
  refer := by simp

end Heap

namespace Machine

theorem bound {α β : Type} {x : Except Fault α} {f : α → Except Fault β} {b : β}
    (same : x >>= f = .ok b) : ∃ a, x = .ok a ∧ f a = .ok b := by
  cases x with
  | ok a => exact ⟨a, rfl, same⟩
  | error fault => contradiction

theorem place_sound {values : List Value} {heap after : Heap} {object : Object} {h : Handle}
    (sound : heap.Sound values) (holds : ∀ v ∈ object.links, heap.Refers v)
    (placed : place heap (values.filterMap Value.handle?) object = .ok (h, after)) {v : Value}
    (tag : Value.ofHandle? object.genus h = some v) : after.Sound (values ++ [v]) := by
  unfold place at placed
  split at placed
  · rename_i k heap' same
    cases placed
    obtain ⟨kept, there, _⟩ :=
      Heap.allocate_keeps sound.tidy sound.closed sound.refer holds same
    refine ⟨kept.tidy, kept.closed, fun w member => ?_⟩
    rcases List.mem_append.mp member with old | new
    · exact kept.refers (sound.refer w old) old
    · cases List.mem_singleton.mp new
      obtain ⟨genus, found⟩ := (Value.ofHandle?_eq_some_iff).mp tag
      intro j at_
      cases Option.some.inj (found.symm.trans at_)
      exact ⟨object, (there h rfl).1, genus.symm⟩
  · contradiction

/-- A fresh machine is closed, with no frames. -/
theorem start_closed {settings : Settings} {world : World} {m : Machine}
    (started : start settings world = .ok m) : m.Closed ∧ m.frames = [] := by
  unfold start at started
  split at started
  · contradiction
  · obtain ⟨⟨exception, heap₁⟩, first, started⟩ := bound started
    have sound₁ := place_sound (v := .form exception) (.empty settings.heapSlots)
      (by simp [Object.links, Form.links]) first rfl
    obtain ⟨⟨ioError, heap₂⟩, second, started⟩ := bound started
    have sound₂ := place_sound (v := .form ioError) sound₁
      (by simpa [Object.links, Form.links] using sound₁.refer) second rfl
    obtain ⟨⟨text, heap₃⟩, third, started⟩ := bound started
    have sound₃ := place_sound (v := .text text) sound₂ (by simp [Object.links]) third rfl
    obtain ⟨⟨heapExhausted, heap₄⟩, fourth, started⟩ := bound started
    have sound₄ := place_sound (v := .imitation heapExhausted) sound₃ (fun v member => ?_) fourth
      rfl
    · cases started
      refine ⟨⟨sound₄.tidy, sound₄.closed, fun v member => ?_, by simp⟩, rfl⟩
      simp only [links, List.map_nil, Option.toList_none, List.flatMap_nil,
        List.nil_append, List.append_nil, List.cons_append, List.mem_cons, List.not_mem_nil,
        or_false] at member
      rcases member with rfl | rfl | rfl | rfl
      · exact Heap.refers_ni
      all_goals exact sound₄.refer _ (by simp)
    · exact sound₃.refer v (by simp [Object.links] at member; grind)

end Machine

namespace Run

variable {strict : Prop} {R : Region strict} {env : Env} {m : Machine} {α : Type}

/-- A throw ends the run with a fault that shows it. -/
theorem settle_eq (c : Run α) : settle c env m = rescue c (fun _ m =>
    .error (.fatal (.uncaught (m.heap.display m.handlers.exception)))
      { m with handlers := m.handlers.takeException.2 }) env m := by
  cases same : c env m with
  | ok a m' => simp only [settle, rescue, same]
  | error unwind m' =>
    cases unwind <;> simp only [settle, rescue, same]
    rfl

theorem Meets.settle {c : Run α} {Q : α → Machine → Prop} (meets : Meets R env c m Q) :
    Meets R env (settle c) m Q := by
  refine Meets.congr (fun n => settle_eq c) (meets.rescue fun m' _ holds _ => ?_)
  exact ⟨R.stable holds (.exception (R.closed holds) Heap.refers_ni), fun _ _ => by simp,
    .instant (fun _ => .same rfl rfl) (fun _ => rfl) rfl⟩

theorem meets_textBook (texts : List String) :
    Meets R env (textBook texts) m fun v m' => m'.heap.Refers v := by
  refine (meets_allocate (by simp [Object.genus]) (by simp [Object.links])).bind
    fun target m₁ _ placed => ?_
  refine (Meets.withPinned (Q := fun v _ => v = .book target) (fun _ => ?_) ?_).weaken ?_
  · simpa using (Heap.refers_book).mpr placed.holds
  · exact (meets_pushTexts (Machine.held_pinned (by simp))).bind fun _ _ _ _ => .pure fun _ => rfl
  · rintro v m' _ ⟨refer, rfl⟩
    exact refer _ (by simp)

theorem meets_runMain (argv : List String) (calls : env.Calls strict) (relaxed : env.Calls False) :
    Meets (.within strict m) env (runMain argv) m fun _ _ => True := by
  refine .get (fun _ => rfl) ?_
  dsimp only
  split
  · exact .fail fun _ _ => by simp
  · rename_i main named
    have fixed : .journey main ∈ m.fixed := by simp [Machine.fixed, named]
    have call : ∀ {m'}, Machine.Within strict m m' → Meets (.within strict m) env
        (settle (callValue evaluate (.journey main) {})) m' fun _ _ => True := by
      intro m' within
      refine ((meets_callValue calls (evaluates relaxed calls) ?_).weaken
        fun _ _ _ _ => trivial).settle
      have refers : m'.heap.Refers (.journey main) :=
        within.closed.links _ (Machine.fixed_sub_links (by rwa [within.fixed]))
      simpa [Arguments.values] using refers
    split
    · exact .intro call
    · rename_i i _
      refine (meets_textBook argv).settle.bind fun v m₁ _ refers => ?_
      refine .installs (fun n => ?_) (fun _ slot => ?_) (fun m₂ same within => ?_)
        (fun m₂ same _ => ?_) fun m₂ _ => .intro call
      · unfold Machine.setGlobal
        split <;> split <;> first | rfl | contradiction
      · unfold Machine.setGlobal
        split <;> simp
      · unfold Machine.setGlobal at same
        split at same
        · cases same
          exact within.trans ⟨within.closed.setGlobal i refers, rfl, rfl, rfl, .refl, .same rfl rfl⟩
        · contradiction
      · unfold Machine.setGlobal at same
        split at same
        · cases same
          exact .same rfl rfl
        · contradiction

end Run

namespace Machine

/-- A machine into which an image was loaded when it was fresh. -/
def Loads (settings : Settings) (world : World) (image : Image) (m : Machine) : Prop :=
  ∃ fresh journeys, start settings world = .ok fresh ∧ fresh.run image.load = .ok journeys m

theorem meets_entry (strict : Prop) (argv : List String) {m : Machine} :
    Run.Meets (.within strict m) { call := callAt nestingLimit, depth := nestingLimit }
      (Run.runMain argv) m fun _ _ => True :=
  Run.meets_runMain argv (callAt_calls strict ..) (callAt_calls False ..)

section Entry

variable {settings : Settings} {world : World} {image : Image} {m : Machine}

theorem Loads.closed (loads : Loads settings world image m) : m.Closed := by
  obtain ⟨fresh, journeys, started, loaded⟩ := loads
  obtain ⟨closed, frames⟩ := start_closed started
  exact Image.load_closed closed frames loaded

theorem Loads.started (loads : Loads settings world image m) (strict : Prop) (budget : Nat) :
    Within strict (m.withBudget budget) (m.withBudget budget) :=
  .refl ⟨loads.closed.tidy, loads.closed.heap, loads.closed.links, loads.closed.patterns⟩

def loadsSuch (settings : Settings) (world : World) (image : Image) (test : Machine → Bool) :
    Bool :=
  match start settings world with
  | .error _ => false
  | .ok fresh =>
    match fresh.run image.load with
    | .ok _ m => test m
    | .error _ _ => false

theorem loads_of (settings : Settings) (world : World) (image : Image) (test : Machine → Bool)
    (checked : loadsSuch settings world image test = true) :
    ∃ m, Loads settings world image m ∧ test m = true := by
  unfold loadsSuch at checked
  split at checked
  · contradiction
  · rename_i fresh started
    split at checked
    · rename_i journeys m loaded
      exact ⟨m, ⟨fresh, journeys, started, loaded⟩, checked⟩
    · contradiction

/-- However far the entry runs, and whatever the platform answers, the machine is closed. A budget
halts a run at the fetch that has none left, so this is the machine at every fetch and at the end. -/
theorem run_closed (platform : Platform) (kept : Surroundings)
    (loads : Loads settings ⟨kept, platform⟩ image m) (argv : List String) (budget : Nat) :
    (after ((m.withBudget budget).run (Run.runMain argv))).Closed :=
  (meets_entry False argv).closed (loads.started False budget) False.elim

/-- A form with two fields, the first guarded by a journey and the second by a text. The entry makes
an imitation of it, which runs the guard on a heap of nine slots that is all but full. -/
def guarded (entry guard : List Word) : Image where
  forms := [
    { name := "F"
      matter := [
        { name := "a", guard := some (.journey 1) },
        { name := "b", guard := some (.text "Numeral") }] }]
  journeys := [
    { name := "main"
      patterns := [
        { block := { registers := 3, constants := [.form 0, .numeral 5], code := entry } }] },
    { name := "guard"
      patterns := [
        { positional := [{ name := "x" }]
          block := { registers := 4, constants := [.form 0, .veracity true], code := guard } }] },
    { name := "spare" }]
  main := some 0

/-- The guard stores another guard for the second field and collects. -/
def treacherous : Image :=
  guarded [36, 0, 0, 36, 1, 1, 17, 0, 2, 1, 1, 2, 29, 2]
    [36, 0, 1, 78, 1, 2, 1, 8, 12, 0, 3, 36, 1, 2, 29, 2]

/-- The entry stores another guard for the second field, and the guard only collects. -/
def faithful : Image :=
  guarded [36, 0, 0, 36, 1, 1, 78, 0, 1, 1, 17, 0, 2, 1, 1, 2, 29, 2]
    [36, 0, 1, 8, 12, 0, 3, 36, 1, 2, 29, 2]

/-- At its sixth fetch the entry waits for the guard. -/
theorem treacherous_closed : ∃ m, Loads { heapSlots := 9 } {} treacherous m ∧
    (∀ budget, (after ((m.withBudget budget).run (Run.runMain []))).Closed) ∧
    (after ((m.withBudget 5).run (Run.runMain []))).frames.length = 2 := by
  obtain ⟨m, loads, nested⟩ := loads_of { heapSlots := 9 } {} treacherous
    (fun m => (after ((m.withBudget 5).run (Run.runMain []))).frames.length = 2) (by decide +kernel)
  exact ⟨m, loads, run_closed .posix {} loads [], of_decide_eq_true nested⟩

/-- A run in which no instruction drops a guard of a form that something suspended holds never
refers to a slot that was swept. -/
theorem run_never_dangles (loads : Loads settings world image m) (argv : List String) (budget : Nat)
    (calm : ∀ n < budget, ∀ halted,
      (m.withBudget n).run (Run.runMain argv) = .error .halted halted → ¬ halted.DropsGuard)
    (slot : Nat) (left : Machine) :
    (m.withBudget budget).run (Run.runMain argv) ≠ .error (.fatal (.dangling slot)) left :=
  (meets_entry True argv).harmless trivial (loads.started True budget) calm slot left

/-- The next instruction stores a guard while something suspended holds a form or an imitation. -/
def mayDropGuard (m : Machine) : Bool :=
  ((m.word? 0).bind Opcode.ofWord?).any (fun o => o = .feGenusStore || o = .fmGenusStore) &&
    m.suspended.any fun v => v.genus = .form || v.genus = .imitation

theorem DropsGuard.may (drops : m.DropsGuard) : m.mayDropGuard = true := by
  obtain ⟨opcode, h, f, guard, index, after, old, next, _, _, _, held, _, stored, _⟩ := drops
  simp only [mayDropGuard, next, Option.any_some, Bool.and_eq_true, List.any_eq_true]
  constructor
  · cases opcode <;> first | rfl | contradiction
  · cases held with
    | form member => exact ⟨_, member, rfl⟩
    | imitation member there => exact ⟨_, member, rfl⟩

def keepsGuards (m : Machine) (budget : Nat) : Bool :=
  (List.range budget).all fun n =>
    match (m.withBudget n).run (Run.runMain []) with
    | .error .halted halted => !halted.mayDropGuard
    | _ => true

theorem keepsGuards.calm {budget : Nat} (keeps : m.keepsGuards budget = true) :
    ∀ n < budget, ∀ halted,
      (m.withBudget n).run (Run.runMain []) = .error .halted halted → ¬ halted.DropsGuard := by
  intro n less halted same drops
  have safe := List.all_eq_true.mp keeps n (List.mem_range.mpr less)
  simp [same, drops.may] at safe

def returns (m : Machine) (budget : Nat) : Bool :=
  match (m.withBudget budget).run (Run.runMain []) with
  | .ok _ _ => true
  | .error _ _ => false

theorem faithful_never_dangles : ∃ m, Loads { heapSlots := 9 } {} faithful m ∧
    m.returns 10 = true ∧ ∀ slot left,
      (m.withBudget 10).run (Run.runMain []) ≠ .error (.fatal (.dangling slot)) left := by
  obtain ⟨m, loads, both⟩ := loads_of { heapSlots := 9 } {} faithful
    (fun m => m.keepsGuards 10 && m.returns 10) (by decide +kernel)
  obtain ⟨keeps, returned⟩ := Bool.and_eq_true_iff.mp both
  exact ⟨m, loads, returned, run_never_dangles loads [] 10 (keepsGuards.calm keeps)⟩

def danglesAt (m : Machine) (budget slot : Nat) : Bool :=
  match (m.withBudget budget).run (Run.runMain []) with
  | .error (.fatal (.dangling k)) _ => k = slot
  | _ => false

/-- Without that condition a run can refer to a slot that was swept: what guards the second field
was taken from the form before the first guard ran. -/
theorem treacherous_dangles : ¬ ∀ settings world image m, Loads settings world image m →
    ∀ argv budget slot left,
      (m.withBudget budget).run (Run.runMain argv) ≠ .error (.fatal (.dangling slot)) left := by
  intro never
  obtain ⟨m, loads, ends⟩ := loads_of { heapSlots := 9 } {} treacherous (danglesAt · 9 8)
    (by decide +kernel)
  unfold danglesAt at ends
  split at ends
  · rename_i k left dangles
    exact never _ _ _ m loads [] 9 k left dangles
  · contradiction

end Entry

end Machine

end JourneyMachine
