import JourneyMachine.Proofs.Closure.Runs

namespace JourneyMachine

/-- What loading does not touch. -/
def Machine.standing (m : Machine) : List Frame × HandlerStack × Settings :=
  (m.frames, m.handlers, m.settings)

namespace Run

variable {α β : Type} {env : Env} {m : Machine} {c : Run α} {k : α → Run β}

/-- A computation that gives a value leaves what is standing. -/
def Leaves (env : Env) (c : Run α) (m : Machine) : Prop :=
  match c env m with
  | .ok _ m' => m'.standing = m.standing
  | .error _ _ => True

theorem Leaves.value {a : α} {m' : Machine} (leaves : Leaves env c m) (done : c env m = .ok a m') :
    m'.standing = m.standing := by
  unfold Leaves at leaves
  rwa [done] at leaves

theorem Leaves.bind (first : Leaves env c m) (next : ∀ a m', Leaves env (k a) m') :
    Leaves env (c >>= k) m := by
  unfold Leaves
  cases same : c env m with
  | ok a m₁ =>
    have second := next a m₁
    unfold Leaves at second
    rw [bind_ok same]
    split at second
    · exact second.trans (first.value same)
    · trivial
  | error unwind m₁ =>
    rw [bind_error same]
    trivial

theorem Leaves.pure {a : α} : Leaves env (Pure.pure a) m := rfl

theorem Leaves.fail {fault : Fault} : Leaves env (Run.fail fault : Run α) m := trivial

theorem Leaves.discard (leaves : Leaves env c m) : Leaves env (Functor.discard c) m :=
  leaves.bind (k := fun _ => Pure.pure ()) fun _ _ => .pure

theorem Leaves.ofExcept {x : Except Fault α} : Leaves env (ofExcept x) m := by
  cases x with
  | ok a => exact .pure
  | error fault => exact .fail

theorem Leaves.onHeap {f : Heap → Except Fault α} : Leaves env (onHeap f) m := by
  unfold Leaves Run.onHeap
  cases f m.heap with
  | ok a => rfl
  | error fault => trivial

theorem Leaves.allocate (object : Object) : Leaves env (Run.allocate object) m := by
  unfold Leaves Run.allocate
  dsimp only
  split
  · rename_i done
    split at done <;> cases done
    rfl
  · trivial

theorem Leaves.get {k : Machine → Run β} (next : Leaves env (k m) m) :
    Leaves env (MonadState.get >>= k) m := next

theorem Leaves.modify {f : Machine → Machine} (same : (f m).standing = m.standing) :
    Leaves env (modify f : Run PUnit) m := same

theorem Leaves.withPinned {values : List Value} (body : Leaves env c (m.pin values)) :
    Leaves env (withPinned values c) m := by
  unfold Leaves at body ⊢
  rw [withPinned_eq]
  rcases same : c env (m.pin values) with _ | ⟨_ | _ | _, _⟩ <;> rw [same] at body
  · exact body
  all_goals trivial

theorem Leaves.settle (body : Leaves env c m) : Leaves env (settle c) m := by
  unfold Leaves Run.settle
  rcases same : c env m with _ | ⟨_ | _ | _, _⟩
  · exact body.value same
  all_goals trivial

theorem Leaves.mapM {f : α → Run β} (each : ∀ a m', Leaves env (f a) m') (values : List α) :
    Leaves env (values.mapM f) m := by
  induction values generalizing m with
  | nil => exact .pure
  | cons a values ih =>
    rw [List.mapM_cons]
    exact (each a m).bind fun _ _ => ih.bind fun _ _ => .pure

/-- The machine is replaced by what is made of it. -/
theorem Leaves.installs {f : Machine → Except Fault Machine} {k : PUnit → Run β}
    (same : ∀ m', f m = .ok m' → m'.standing = m.standing) (next : ∀ m', Leaves env (k ⟨⟩) m') :
    Leaves env (do
      let r ← set (← Run.ofExcept (f (← MonadState.get)))
      k r) m := by
  refine .get ?_
  cases made : f m with
  | ok m₁ =>
    have installed : Leaves env (set m₁ : Run PUnit) m := same m₁ made
    exact installed.bind fun _ m' => next m'
  | error fault => exact .fail

end Run

namespace Image

open Run

variable {env : Env} {m : Machine}

theorem leaves_update (h : Handle) (f : Object → Object) : Leaves env (update h f) m :=
  .modify rfl

theorem leaves_place (object : Object) : Leaves env (place object) m :=
  (Leaves.allocate _).bind fun _ _ => (Leaves.modify rfl).bind fun _ _ => .pure

theorem leaves_placeAll (objects : List Object) : Leaves env (placeAll objects) m := by
  induction objects generalizing m with
  | nil => exact .pure
  | cons object objects ih => exact (leaves_place object).bind fun _ _ => ih.bind fun _ _ => .pure

variable (placed : Placed)

mutual

theorem leaves_loadConstant (constant : Constant) {m : Machine} :
    Leaves env (loadConstant placed constant) m := by
  cases constant <;> unfold loadConstant
  case ni | veracity | numeral => exact .pure
  case text => exact (leaves_place _).bind fun _ _ => .pure
  case journey | form => exact Leaves.ofExcept.bind fun _ _ => .pure
  case exception | ioError => exact .get .pure
  case book pages =>
    exact (leaves_place _).bind fun target _ =>
      (leaves_loadPages target pages).bind fun _ _ => .pure

theorem leaves_loadPages (target : Handle) (pages : List Constant) {m : Machine} :
    Leaves env (loadPages placed target pages) m := by
  cases pages <;> unfold loadPages
  case nil => exact .pure
  case cons page pages =>
    exact (leaves_loadConstant page).bind fun _ _ =>
      (Leaves.onHeap.discard.bind fun _ _ => leaves_update ..).bind fun _ _ =>
        leaves_loadPages target pages

end

theorem leaves_loadConstants (constants : List Constant) :
    Leaves env (loadConstants placed constants) m := by
  induction constants generalizing m with
  | nil => exact .pure
  | cons constant constants ih =>
    exact (leaves_loadConstant placed constant).bind fun _ _ => ih.bind fun _ _ => .pure

theorem leaves_loadOptional (constant : Option Constant) :
    Leaves env (loadOptional placed constant) m := by
  cases constant with
  | none => exact .pure
  | some constant => exact (leaves_loadConstant placed constant).bind fun _ _ => .pure

theorem leaves_loadPatterns (patterns : List Pattern) :
    Leaves env (loadPatterns placed patterns) m := by
  induction patterns generalizing m with
  | nil => exact .pure
  | cons pattern patterns ih =>
    have loads : Leaves env (loadPattern placed pattern) m :=
      (leaves_loadConstants placed _).bind fun _ _ => .pure
    exact loads.bind fun _ _ => ih.bind fun _ _ => .pure

theorem leaves_loadEssences (essences : List Essence) :
    Leaves env (loadEssences placed essences) m := by
  induction essences generalizing m with
  | nil => exact .pure
  | cons essence essences ih =>
    exact (leaves_loadConstant placed _).bind fun _ _ =>
      (leaves_loadOptional placed _).bind fun _ _ => ih.bind fun _ _ => .pure

theorem leaves_loadMatter (matter : List Matter) : Leaves env (loadMatter placed matter) m := by
  induction matter generalizing m with
  | nil => exact .pure
  | cons field matter ih =>
    exact (leaves_loadOptional placed _).bind fun _ _ => ih.bind fun _ _ => .pure

theorem leaves_loadForm (f : Form) : Leaves env (loadForm placed f) m := by
  have indexed : ∀ {α : Type} (find : UInt32 → Except Fault α) (i : UInt32) m',
    Leaves env (ofExcept (find i)) m' := fun _ _ _ => .ofExcept
  refine (leaves_loadEssences placed _).bind fun _ _ => ?_
  refine (leaves_loadMatter placed _).bind fun _ _ => ?_
  refine (Leaves.mapM (indexed placed.journey) _).bind fun _ _ => ?_
  refine (Leaves.mapM (indexed placed.journey) _).bind fun _ _ => ?_
  refine Leaves.bind ?_ fun _ _ => (Leaves.mapM (indexed placed.form) _).bind fun _ _ => .pure
  cases f.imitate with
  | none => exact .pure
  | some i => exact (indexed placed.journey i _).bind fun _ _ => .pure

theorem leaves_fillJourneys (journeys : List (Journey × Handle)) :
    Leaves env (fillJourneys placed journeys) m := by
  induction journeys generalizing m with
  | nil => exact .pure
  | cons journey journeys ih =>
    exact (leaves_loadPatterns placed _).bind fun _ _ => Leaves.onHeap.discard.bind fun _ _ =>
      (leaves_update ..).bind fun _ _ => ih

theorem leaves_fillForms (forms : List (Form × Handle)) :
    Leaves env (fillForms placed forms) m := by
  induction forms generalizing m with
  | nil => exact .pure
  | cons form forms ih =>
    exact (leaves_loadForm placed _).bind fun _ _ =>
      (Leaves.onHeap.discard.bind fun _ _ => leaves_update ..).bind fun _ _ => ih

theorem leaves_loadGlobals (globals : List Global) : Leaves env (loadGlobals placed globals) m := by
  induction globals generalizing m with
  | nil => exact .pure
  | cons global globals ih =>
    exact (leaves_loadConstant placed _).bind fun _ _ => (Leaves.modify rfl).bind fun _ _ => ih

theorem leaves_receiver (index : Option UInt32) {journeys : List Value} :
    Leaves env (match index with
      | none => pure journeys
      | some index => do
        set (← ofExcept ((← get).setArgvGlobal index.toNat))
        return journeys) m := by
  split
  · exact .pure
  · refine .installs (fun m₁ made => ?_) fun _ => .pure
    unfold Machine.setArgvGlobal at made
    split at made <;> cases made
    rfl

theorem leaves_link (image : Image) : Leaves env (link image) m := by
  refine (leaves_placeAll _).bind fun forms _ => (leaves_placeAll _).bind fun journeys _ => ?_
  refine (leaves_fillJourneys ..).bind fun _ _ => (leaves_fillForms ..).bind fun _ _ => ?_
  refine (leaves_loadGlobals ..).bind fun _ _ => ?_
  dsimp only
  split
  · exact leaves_receiver image.argvGlobal
  · refine Leaves.ofExcept.bind fun main _ => ?_
    refine .installs (fun m₁ made => ?_) fun _ => leaves_receiver image.argvGlobal
    cases made
    rfl

theorem leaves_load (image : Image) : Leaves env image.load m := by
  refine .get ?_
  split
  · exact (leaves_link image).withPinned.settle
  · exact .fail

end Image

namespace Machine

theorem start_standing {settings : Settings} {world : Host.World} {m : Machine}
    (started : start settings world = .ok m) :
    m.standing = ([], { limit := settings.maxHandlers }, settings) := by
  unfold start at started
  split at started
  · contradiction
  · obtain ⟨_, _, started⟩ := bound started
    obtain ⟨_, _, started⟩ := bound started
    obtain ⟨_, _, started⟩ := bound started
    obtain ⟨_, _, started⟩ := bound started
    cases started
    rfl

/-- A machine into which an image was loaded has no frames and no handlers. -/
theorem Loads.standing {settings : Settings} {world : Host.World} {image : Image} {m : Machine}
    (loads : Loads settings world image m) :
    m.standing = ([], { limit := settings.maxHandlers }, settings) := by
  obtain ⟨fresh, journeys, started, loaded⟩ := loads
  exact ((Image.leaves_load image).value loaded).trans (start_standing started)

end Machine

end JourneyMachine
