import JourneyMachine.Proofs.Randomness.Draws

namespace JourneyMachine

open Host (World)

namespace Image

open Run

variable {placed : Placed}

/-- The machine is replaced by what is made of it. -/
theorem draws_installs {β : Type} {f : Machine → Except Fault Machine} {k : PUnit → Run β}
    (same : ∀ m m', f m = .ok m' → m.Draws m') (next : Composed @Draws (k ⟨⟩)) :
    Composed @Draws (do
      let r ← set (← ofExcept (f (← MonadState.get)))
      k r) := by
  refine .given fun env calls m => ?_
  cases made : f m with
  | ok m₁ =>
    have installed : (MonadState.get >>= fun m => ofExcept (f m) >>= fun m' =>
        (set m' : Run PUnit) >>= k) env m = k ⟨⟩ env m₁ := by
      refine (bind_ok (a := m) rfl).trans ?_
      rw [made]
      rfl
    rw [installed]
    exact (same m m₁ made).trans (next.draws env calls m₁)
  | error fault =>
    have refused : (MonadState.get >>= fun m => ofExcept (f m) >>= fun m' =>
        (set m' : Run PUnit) >>= k) env m = .error (.fatal fault) m := by
      refine (bind_ok (a := m) rfl).trans ?_
      rw [made]
      rfl
    rw [refused]
    exact .refl

instance draws_place {object : Object} : Composed @Draws (place object) :=
  .bind inferInstance fun _ => .bind (.modify (fun _ _ => rfl) fun _ => ⟨rfl, rfl, rfl, rfl⟩)
    fun _ => composed_pure

instance draws_placeAll {objects : List Object} : Composed @Draws (placeAll objects) := by
  induction objects <;> unfold placeAll <;> infer_instance

mutual

theorem draws_constant (constant : Constant) : Composed @Draws (loadConstant placed constant) := by
  cases constant <;> unfold loadConstant
  case book pages =>
    have loads := draws_pages pages
    infer_instance
  all_goals infer_instance

theorem draws_pages (pages : List Constant) (target : Handle) :
    Composed @Draws (loadPages placed target pages) := by
  cases pages <;> unfold loadPages
  case nil => infer_instance
  case cons constant pages =>
    have first := draws_constant constant
    have rest := draws_pages pages target
    infer_instance

end

instance draws_loadConstant {constant : Constant} :
    Composed @Draws (loadConstant placed constant) := draws_constant constant

instance draws_loadConstants {constants : List Constant} :
    Composed @Draws (loadConstants placed constants) := by
  induction constants <;> unfold loadConstants <;> infer_instance

instance draws_loadOptional {constant : Option Constant} :
    Composed @Draws (loadOptional placed constant) := by
  cases constant <;> unfold loadOptional <;> infer_instance

instance draws_loadPatterns {patterns : List Pattern} :
    Composed @Draws (loadPatterns placed patterns) := by
  induction patterns <;> unfold loadPatterns
  case nil => infer_instance
  case cons pattern rest ih =>
    unfold loadPattern
    infer_instance

instance draws_loadEssences {essences : List Essence} :
    Composed @Draws (loadEssences placed essences) := by
  induction essences <;> unfold loadEssences <;> infer_instance

instance draws_loadMatter {matter : List Matter} :
    Composed @Draws (loadMatter placed matter) := by
  induction matter <;> unfold loadMatter <;> infer_instance

instance draws_loadForm {f : Form} : Composed @Draws (loadForm placed f) := by
  have indexed : ∀ {α : Type} (find : UInt32 → Except Fault α) (indices : List UInt32),
      Composed @Draws (indices.mapM fun i => ofExcept (find i)) := fun _ _ =>
    .mapM _ fun _ => composed_ofExcept
  have constructor : Composed @Draws (f.imitate.mapM fun i => ofExcept (placed.journey i)) := by
    cases f.imitate with
    | none => exact composed_pure
    | some i => exact .bind composed_ofExcept fun _ => composed_pure
  unfold loadForm
  infer_instance

instance draws_fillJourneys {journeys : List (Journey × Handle)} :
    Composed @Draws (fillJourneys placed journeys) := by
  induction journeys <;> unfold fillJourneys <;> infer_instance

instance draws_fillForms {forms : List (Form × Handle)} :
    Composed @Draws (fillForms placed forms) := by
  induction forms <;> unfold fillForms <;> infer_instance

instance draws_loadGlobals {globals : List Global} :
    Composed @Draws (loadGlobals placed globals) := by
  induction globals <;> unfold loadGlobals
  case nil => infer_instance
  case cons global rest ih =>
    exact .bind inferInstance fun _ =>
      .bind (.modify (fun _ _ => rfl) fun _ => ⟨rfl, rfl, rfl, rfl⟩) fun _ => ih

instance draws_receive {journeys : List Value} {index : Option UInt32} :
    Composed @Draws (receive journeys index) := by
  cases index with
  | none => exact composed_pure
  | some index =>
    refine draws_installs (fun m m' made => ?_) inferInstance
    unfold Machine.setArgvGlobal at made
    split at made <;> cases made
    exact .of_same rfl rfl

instance draws_appoint {index argvGlobal : Option UInt32} :
    Composed @Draws (appoint placed argvGlobal index) := by
  cases index with
  | none => exact draws_receive
  | some index =>
    refine .bind inferInstance fun main => draws_installs (fun m m' made => ?_) draws_receive
    cases made
    exact .of_same rfl rfl

instance draws_install {image : Image} : Composed @Draws image.install := by
  unfold install fill
  infer_instance

instance draws_link {image : Image} : Composed @Draws (link image) := by
  rw [link_eq]
  infer_instance

instance draws_load {image : Image} : Composed @Draws image.load := draws_get

end Image

namespace Machine

variable {m m' : Machine}

/-- The generator is the one that the settings seed, after some draws. -/
def Seeded (m : Machine) : Prop := ∃ n, m.random = (Random.seeded m.settings.seed).drawn n

theorem Draws.seeded (draws : m.Draws m') (seeded : m.Seeded) : m'.Seeded := by
  obtain ⟨settings, more, later⟩ := draws
  obtain ⟨n, random⟩ := seeded
  refine ⟨more + n, ?_⟩
  rw [later, random, settings, Random.drawn_add]

theorem start_seeded {settings : Settings} {world : World}
    (started : start settings world = .ok m) : m.Seeded := by
  unfold start at started
  split at started
  · contradiction
  · obtain ⟨_, _, started⟩ := bound started
    obtain ⟨_, _, started⟩ := bound started
    obtain ⟨_, _, started⟩ := bound started
    obtain ⟨_, _, started⟩ := bound started
    cases started
    exact ⟨0, rfl⟩

theorem calling_draws (depth : Nat) : (calling depth).Draws := callAt_draws depth depth

theorem Loads.seeded {settings : Settings} {world : World} {image : Image}
    (loads : Loads settings world image m) : m.Seeded := by
  obtain ⟨fresh, journeys, started, loaded⟩ := loads
  have draws := Image.draws_load.draws (c := image.load) _ (calling_draws nestingLimit) fresh
  have same : image.load (calling nestingLimit) fresh = .ok journeys m := loaded
  rw [same] at draws
  exact draws.seeded (start_seeded started)

theorem Made.seeded (made : Made m) : m.Seeded := by
  induction made with
  | load loads => exact loads.seeded
  | @run m errand budget _ _ ih =>
    -- The budget of the run is no part of what is seeded.
    have draws := Run.composed_errand.draws (c := errand.body) _ (calling_draws nestingLimit)
      (m.withBudget budget)
    exact draws.seeded ih
  | collect _ ih => exact ih

/-- From whatever seed and however many words are drawn, the state never comes to zero, and
different states stay different. A random numeral is never negative and takes one draw. The
generator of every machine that loads, runs and collections lead to is the one its settings seed,
after some draws. -/
theorem generator_never_degenerates :
    Function.Injective Random.scramble ∧ (∀ n, Function.Injective (Random.drawn n)) ∧
    (∀ seed n, ((Random.seeded seed).drawn n).state ≠ 0) ∧
    (∀ env (m : Machine), 0 ≤ m.random.nextNumeral.1 ∧ Run.serve .random env m =
      .ok (.numeral m.random.nextNumeral.1) { m with random := m.random.drawn 1 }) ∧
    ∀ m, Made m → m.random.state ≠ 0 ∧ ∃ n, m.random = (Random.seeded m.settings.seed).drawn n := by
  have nonzero : ∀ seed n, ((Random.seeded seed).drawn n).state ≠ 0 := fun seed =>
    Random.drawn_ne_zero (Random.seeded_ne_zero seed)
  refine ⟨Random.scramble_injective, Random.drawn_injective, nonzero, fun env m => ?_,
    fun m made => ?_⟩
  · exact ⟨m.random.nextNumeral_nonneg, Run.serve_random env m⟩
  · obtain ⟨n, random⟩ := made.seeded
    refine ⟨?_, n, random⟩
    rw [random]
    exact nonzero m.settings.seed n

def rolling : Image where
  journeys := [
    { name := "main"
      patterns := [{ block := { registers := 2, code := [8, 4, 0, 8, 4, 1, 29, 0] } }] }]
  main := some 0

theorem rolling_never_degenerates : ∃ m, Loads { heapSlots := 6, seed := 0 } {} rolling m ∧
    let late := after ((m.withBudget 2).run (Errand.main []).body)
    late.random = (Random.seeded 0).drawn 2 ∧ late.random.state ≠ 0 ∧
    ∃ n, late.random = (Random.seeded late.settings.seed).drawn n := by
  obtain ⟨m, loads, twice⟩ := loads_of { heapSlots := 6, seed := 0 } {} rolling
    (fun m => (after ((m.withBudget 2).run (Run.runMain []))).random = (Random.seeded 0).drawn 2)
    (by decide +kernel)
  have made := Made.run (.main []) 2 (.load loads) (by simp [Errand.values])
  exact ⟨m, loads, of_decide_eq_true twice, generator_never_degenerates.2.2.2.2 _ made⟩

end Machine

end JourneyMachine
