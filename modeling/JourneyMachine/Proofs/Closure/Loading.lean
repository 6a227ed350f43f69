import JourneyMachine.Image.Load
import JourneyMachine.Proofs.Closure.Loops

namespace JourneyMachine

namespace Machine

theorem Closed.defineGlobal {m : Machine} (closed : m.Closed) (name : String) {v : Value}
    (refers : m.heap.Refers v) : (m.defineGlobal name v).Closed := by
  refine closed.of_links rfl (fun w member => ?_) fun _ => .inl
  simp only [Machine.links, Machine.defineGlobal, Program.define, Array.toList_push,
    List.map_append, List.map_cons, List.map_nil, List.mem_append, List.mem_singleton] at member ⊢
  rcases member with (((((rest | rfl) | rest) | rest) | rest) | rest) | rest
  · tauto
  · exact .inr refers
  all_goals tauto

theorem Closed.setMain {m : Machine} (closed : m.Closed) {h : Handle}
    (refers : m.heap.Refers (.journey h)) :
    ({ m with program := { m.program with main := some h } } : Machine).Closed := by
  refine closed.of_links rfl (fun v member => ?_) fun _ => .inl
  simp only [Machine.links, Option.toList_some, List.map_cons, List.map_nil, List.mem_append,
    List.mem_singleton] at member ⊢
  rcases member with ((((rest | rfl) | rest) | rest) | rest) | rest
  · tauto
  · exact .inr refers
  all_goals tauto

theorem Closed.unpinned {m : Machine} (closed : m.Closed) (count : Nat) :
    (m.unpin count).Closed := by
  refine closed.of_links rfl (fun v member => .inl ?_) fun _ => .inl
  have older : v ∈ oldest count m.pinned → v ∈ m.pinned := List.mem_of_mem_drop
  simp only [Machine.links, Machine.unpin, List.mem_append] at member ⊢
  tauto

def anchors (m : Machine) : List Value := m.pinned ++ m.fixed

theorem anchors_sub_links {m : Machine} {v : Value} (member : v ∈ m.anchors) : v ∈ m.links := by
  rcases List.mem_append.mp member with pinned | fixed
  · exact held_sub_links (List.mem_append_left _ pinned)
  · exact fixed_sub_links fixed

/-- A machine under load that still has these values. -/
structure Loading (kept : List Value) (m : Machine) : Prop where
  closed : m.Closed
  frames : m.frames = []
  kept : ∀ v ∈ kept, v ∈ m.anchors

/-- A value that a load can refer to from here on. -/
def Keeps (m : Machine) (v : Value) : Prop := v.handle? ≠ none → v ∈ m.anchors

section Keeping

variable {m m' : Machine} {v : Value}

theorem Keeps.mono (keeps : m.Keeps v) (sub : ∀ v ∈ m.anchors, v ∈ m'.anchors) : m'.Keeps v :=
  fun inHeap => sub v (keeps inHeap)

theorem Keeps.refers (keeps : m.Keeps v) (closed : m.Closed) : m.heap.Refers v := fun h found =>
  closed.links v (anchors_sub_links (keeps (by simp [found]))) h found

theorem Keeps.of_mem (member : v ∈ m.anchors) : m.Keeps v := fun _ => member

end Keeping

namespace Loading

variable {kept : List Value} {m m' : Machine}

theorem within (loading : Loading kept m) (within : Within False m m') :
    Loading kept m' where
  closed := within.closed
  frames := within.frames.trans loading.frames
  kept v member := by
    simp only [anchors, within.pinned, within.fixed]
    exact loading.kept v member

/-- With no frames an object may become any other of its genus. -/
theorem filled (loading : Loading kept m) {h : Handle} {o : Object} {f : Object → Object}
    (used : m.heap.get? h = some o) (genus : (f o).genus = o.genus)
    (holds : ∀ v ∈ (f o).links, m.heap.Refers v) :
    Loading kept { m with heap := m.heap.modify h f } := by
  have alike : ∀ p, m.heap.get? h = some p → (f p).genus = p.genus := by
    intro p there
    cases Option.some.inj (used.symm.trans there)
    exact genus
  refine ⟨⟨loading.closed.tidy.modify h f, loading.closed.heap.modify alike ?_, fun v member => ?_,
    fun frame member => ?_⟩, loading.frames, loading.kept⟩
  · intro p there
    cases Option.some.inj (used.symm.trans there)
    exact holds
  · exact (loading.closed.links v member).modify alike
  · have none : m.frames = [] := loading.frames
    have there : frame ∈ m.frames := member
    rw [none] at there
    contradiction

end Loading

end Machine

/-- What a load keeps. The forms and journeys that it fills in were placed without their content. -/
def Region.loading (kept : List Value) : Region False where
  holds := Machine.Loading kept
  shapes := False
  closed := fun loading => loading.closed
  stable := Machine.Loading.within

open Run

variable {kept : List Value} {env : Env} {m : Machine} {α β : Type}

/-- What a computation can refer to where it starts it can refer to where it ends. -/
theorem Run.Meets.further {c : Run α} {Q : α → Machine → Prop}
    (meets : Meets (.loading m.anchors) env c m Q) :
    Meets (.loading kept) env c m fun a m' => Q a m' ∧ ∀ v ∈ m.anchors, v ∈ m'.anchors := by
  intro loading _
  have outcome := meets ⟨loading.closed, loading.frames, fun _ member => member⟩ False.elim
  have wider : ∀ {m'}, Machine.Loading m.anchors m' → Machine.Loading kept m' := fun after =>
    ⟨after.closed, after.frames, fun v member => after.kept v (loading.kept v member)⟩
  cases same : c env m with
  | ok a m' =>
    rw [same] at outcome
    exact ⟨wider outcome.1, ⟨outcome.2.1, outcome.1.kept⟩, outcome.2.2⟩
  | error unwind m' =>
    rw [same] at outcome
    cases unwind with
    | thrown => exact ⟨wider outcome.1, outcome.2⟩
    | fatal fault => exact ⟨wider outcome.1, outcome.2⟩
    | halted => exact outcome

/-- A part of an object is loaded after others. -/
theorem Run.Meets.gather {c : Run α} {gathered : List Value} {part : α → List Value}
    (before : ∀ v ∈ gathered, m.Keeps v)
    (meets : Meets (.loading m.anchors) env c m fun a m' => ∀ v ∈ part a, m'.Keeps v) :
    Meets (.loading kept) env c m fun a m' => ∀ v ∈ gathered ++ part a, m'.Keeps v := by
  refine meets.further.weaken fun a m' _ post v member => ?_
  rcases List.mem_append.mp member with old | new
  · exact (before v old).mono post.2
  · exact post.1 v new

namespace Image

section Lists

/-- A list is loaded one by one; what is loaded stays within reach while the rest is. -/
theorem meets_each {f : α → Run β} {g : List α → Run (List β)} {l : List α}
    {P : Machine → β → Prop} (nil : g [] = pure [])
    (cons : ∀ a l, g (a :: l) = do
      let b ← f a
      return b :: (← g l))
    (mono : ∀ {m m' b}, (∀ v ∈ m.anchors, v ∈ m'.anchors) → P m b → P m' b)
    (each : ∀ a ∈ l, ∀ {more m}, (∀ v ∈ kept, v ∈ more) →
      Meets (.loading more) env (f a) m fun b m' => P m' b) :
    Meets (.loading kept) env (g l) m fun bs m' => ∀ b ∈ bs, P m' b := by
  induction l generalizing kept m with
  | nil =>
    rw [nil]
    exact .pure fun _ => by simp
  | cons a rest ih =>
    rw [cons]
    refine (each a (List.mem_cons_self ..) fun _ => id).bind fun b m₁ loading first => ?_
    refine (ih fun c member _ _ sub => each c (List.mem_cons_of_mem _ member) fun v there =>
      sub v (loading.kept v there)).further.bind fun bs m₂ _ post => .pure fun _ => ?_
    intro c member
    rcases List.mem_cons.mp member with rfl | later
    · exact mono post.2 first
    · exact post.1 c later

end Lists

section Placing

theorem meets_place {object : Object} {v : Handle → Value}
    (tag : ∀ h, Value.ofHandle? object.genus h = some (v h))
    (holds : ∀ w ∈ object.links, m.heap.Refers w) :
    Meets (.loading kept) env (place object) m fun h m' => v h ∈ m'.anchors := by
  refine (meets_allocation (R := .loading kept) (fun _ => holds) False.elim
    fun heap keeps _ loading => ⟨loading.closed.kept keeps, loading.frames, loading.kept⟩).bind
      fun h m₁ _ placed => ?_
  refine Meets.bind (P := fun _ m₂ => v h ∈ m₂.anchors) (.changes (fun _ => rfl) (fun loading => ?_)
    fun _ => .same rfl rfl) fun _ _ _ post => .pure fun _ => post
  rw [tag]
  obtain ⟨genus, found⟩ := (Value.ofHandle?_eq_some_iff).mp (tag h)
  have refers : m₁.heap.Refers (v h) := by
    intro k same
    rw [found] at same
    cases same
    rw [genus]
    exact placed.holds
  refine ⟨⟨loading.closed.pin (by simpa using refers), loading.frames, fun w member => ?_⟩, ?_⟩
  · have before := loading.kept w member
    simp only [Machine.anchors, List.mem_append] at before ⊢
    tauto
  · simp [Machine.anchors]

theorem meets_placeAll {objects : List Object} {v : Handle → Value}
    (tag : ∀ o ∈ objects, ∀ h, Value.ofHandle? o.genus h = some (v h))
    (empty : ∀ o ∈ objects, o.links = []) :
    Meets (.loading kept) env (placeAll objects) m fun handles m' =>
      ∀ h ∈ handles, v h ∈ m'.anchors :=
  meets_each rfl (fun _ _ => rfl) (fun sub member => sub _ member) fun o member _ _ _ =>
    meets_place (tag o member) (by simp [empty o member])

end Placing

def Placed.values (p : Placed) : List Value :=
  p.forms.toList.map .form ++ p.journeys.toList.map .journey

section Constants

variable {placed : Placed}

theorem meets_placedJourney (sub : ∀ v ∈ placed.values, v ∈ kept) (index : UInt32) :
    Meets (.loading kept) env (ofExcept (placed.journey index)) m fun h m' =>
      m'.Keeps (.journey h) := by
  refine .ofExcept False.elim fun h same loading => .of_mem (loading.kept _ (sub _ ?_))
  unfold Placed.journey at same
  split at same
  · rename_i found
    cases same
    exact List.mem_append_right _ (List.mem_map.mpr
      ⟨h, Array.mem_toList_iff.mpr (Array.mem_of_getElem? found), rfl⟩)
  · contradiction

theorem meets_placedForm (sub : ∀ v ∈ placed.values, v ∈ kept) (index : UInt32) :
    Meets (.loading kept) env (ofExcept (placed.form index)) m fun h m' =>
      m'.Keeps (.form h) := by
  refine .ofExcept False.elim fun h same loading => .of_mem (loading.kept _ (sub _ ?_))
  unfold Placed.form at same
  split at same
  · rename_i found
    cases same
    exact List.mem_append_left _ (List.mem_map.mpr
      ⟨h, Array.mem_toList_iff.mpr (Array.mem_of_getElem? found), rfl⟩)
  · contradiction

mutual

theorem meets_loadConstant {kept : List Value} {m : Machine}
    (sub : ∀ v ∈ placed.values, v ∈ kept) (c : Constant) :
    Meets (.loading kept) env (loadConstant placed c) m fun v m' => m'.Keeps v := by
  cases c with
  | ni | veracity | numeral => exact .pure fun _ inHeap => absurd rfl inHeap
  | text content =>
    exact (meets_place (v := .text) (fun _ => rfl) (by simp [Object.links])).bind
      fun h _ _ member => .pure fun _ => .of_mem member
  | journey index =>
    exact (meets_placedJourney sub index).bind fun _ _ _ keeps => .pure fun _ => keeps
  | form index =>
    exact (meets_placedForm sub index).bind fun _ _ _ keeps => .pure fun _ => keeps
  | exception =>
    exact .get (fun _ => rfl) (.pure fun _ => .of_mem (by simp [Machine.anchors, Machine.fixed]))
  | ioError =>
    exact .get (fun _ => rfl) (.pure fun _ => .of_mem (by simp [Machine.anchors, Machine.fixed]))
  | book pages =>
    refine (meets_place (v := .book) (fun _ => rfl) (by simp [Object.links])).bind
      fun h m₁ loading member => ?_
    refine (meets_loadPages (fun v there => loading.kept v (sub v there)) member pages).further.bind
      fun _ m₂ _ post => .pure fun _ => .of_mem (post.2 _ member)

theorem meets_loadPages {kept : List Value} {m : Machine} {target : Handle}
    (sub : ∀ v ∈ placed.values, v ∈ kept) (there : .book target ∈ kept) (pages : List Constant) :
    Meets (.loading kept) env (loadPages placed target pages) m fun _ _ => True := by
  cases pages with
  | nil => exact .pure fun _ => trivial
  | cons c rest =>
    refine (meets_loadConstant sub c).bind fun v m₁ _ keeps => ?_
    refine (meets_editBook False.elim fun pages used loading w member => ?_).bind fun _ _ _ _ =>
      meets_loadPages sub there rest
    rcases Array.mem_push.mp (Array.mem_toList_iff.mp member) with old | rfl
    · exact loading.closed.heap target _ used w (Array.mem_toList_iff.mpr old)
    · exact keeps.refers loading.closed

end

theorem meets_loadOptional (sub : ∀ v ∈ placed.values, v ∈ kept) (c : Option Constant) :
    Meets (.loading kept) env (loadOptional placed c) m fun found m' =>
      ∀ v ∈ found.toList, m'.Keeps v := by
  cases c with
  | none => exact .pure fun _ => by simp
  | some c =>
    exact (meets_loadConstant sub c).bind fun v _ _ keeps => .pure fun _ => by simpa using keeps

end Constants

section Objects

variable {placed : Placed}

theorem meets_loadConstants (sub : ∀ v ∈ placed.values, v ∈ kept) (constants : List Constant) :
    Meets (.loading kept) env (loadConstants placed constants) m fun vs m' =>
      ∀ v ∈ vs, m'.Keeps v :=
  meets_each rfl (fun _ _ => rfl) (fun wider keeps => keeps.mono wider) fun c _ _ _ more =>
    meets_loadConstant (fun v there => more v (sub v there)) c

theorem meets_loadPattern (sub : ∀ v ∈ placed.values, v ∈ kept) (p : Pattern) :
    Meets (.loading kept) env (loadPattern placed p) m fun pattern m' =>
      ∀ v ∈ pattern.block.constants.toList, m'.Keeps v :=
  (meets_loadConstants sub p.block.constants).bind fun _ _ _ keeps =>
    .pure fun _ => by simpa using keeps

theorem meets_loadPatterns (sub : ∀ v ∈ placed.values, v ∈ kept) (patterns : List Pattern) :
    Meets (.loading kept) env (loadPatterns placed patterns) m fun loaded m' =>
      ∀ p ∈ loaded, ∀ v ∈ p.block.constants.toList, m'.Keeps v :=
  meets_each rfl (fun _ _ => rfl) (fun wider keeps v member => (keeps v member).mono wider)
    fun p _ _ _ more => meets_loadPattern (fun v there => more v (sub v there)) p

theorem meets_loadEssences (sub : ∀ v ∈ placed.values, v ∈ kept) (essences : List Essence) :
    Meets (.loading kept) env (loadEssences placed essences) m fun loaded m' =>
      ∀ v ∈ loaded.flatMap fun e => e.value :: e.guard.toList, m'.Keeps v := by
  simp only [List.forall_mem_flatMap]
  refine meets_each (f := fun e => do
    let value ← loadConstant placed e.value
    let guard ← loadOptional placed e.guard
    return { name := e.name, value, guard }) rfl (fun e rest => ?_)
    (fun wider keeps v member => (keeps v member).mono wider) fun e _ _ m more => ?_
  · simp only [loadEssences, bind_assoc, pure_bind]
  · have wide := fun v there => more v (sub v there)
    refine (meets_loadConstant wide e.value).bind fun value m₁ loading first => ?_
    refine (meets_loadOptional (fun v there => loading.kept v (wide v there)) e.guard).further.bind
      fun guard m₂ _ post => .pure fun _ v member => ?_
    rcases List.mem_cons.mp member with rfl | part
    · exact first.mono post.2
    · exact post.1 v part

theorem meets_loadMatter (sub : ∀ v ∈ placed.values, v ∈ kept) (matter : List Matter) :
    Meets (.loading kept) env (loadMatter placed matter) m fun loaded m' =>
      ∀ v ∈ loaded.flatMap fun f => f.guard.toList, m'.Keeps v := by
  simp only [List.forall_mem_flatMap]
  refine meets_each (f := fun f => do
    let guard ← loadOptional placed f.guard
    return { name := f.name, guard }) rfl (fun f rest => ?_)
    (fun wider keeps v member => (keeps v member).mono wider) fun f _ _ m more => ?_
  · simp only [loadMatter, bind_assoc, pure_bind]
  · exact (meets_loadOptional (fun v there => more v (sub v there)) f.guard).bind
      fun _ _ _ keeps => .pure fun _ => keeps

theorem meets_journeys (sub : ∀ v ∈ placed.values, v ∈ kept) (indices : List UInt32) :
    Meets (.loading kept) env (indices.mapM fun i => ofExcept (placed.journey i)) m
      fun handles m' => ∀ v ∈ handles.map .journey, m'.Keeps v := by
  simp only [List.forall_mem_map]
  exact meets_each (g := fun l => l.mapM _) List.mapM_nil (fun _ _ => List.mapM_cons)
    (fun wider keeps => keeps.mono wider) fun i _ _ _ more =>
      meets_placedJourney (fun v there => more v (sub v there)) i

theorem meets_forms (sub : ∀ v ∈ placed.values, v ∈ kept) (indices : List UInt32) :
    Meets (.loading kept) env (indices.mapM fun i => ofExcept (placed.form i)) m
      fun handles m' => ∀ v ∈ handles.map .form, m'.Keeps v := by
  simp only [List.forall_mem_map]
  exact meets_each (g := fun l => l.mapM _) List.mapM_nil (fun _ _ => List.mapM_cons)
    (fun wider keeps => keeps.mono wider) fun i _ _ _ more =>
      meets_placedForm (fun v there => more v (sub v there)) i

/-- The optional journey that makes imitations. -/
theorem meets_constructor (sub : ∀ v ∈ placed.values, v ∈ kept) (index : Option UInt32) :
    Meets (.loading kept) env (index.mapM fun i => ofExcept (placed.journey i)) m fun found m' =>
      ∀ v ∈ found.toList.map .journey, m'.Keeps v := by
  cases index with
  | none => exact .pure fun _ => by simp
  | some i =>
    exact (meets_placedJourney sub i).bind fun _ _ _ keeps => .pure fun _ => by simpa using keeps

theorem meets_loadForm (sub : ∀ v ∈ placed.values, v ∈ kept) (f : Form) :
    Meets (.loading kept) env (loadForm placed f) m fun form m' =>
      ∀ v ∈ form.links, m'.Keeps v := by
  have wider : ∀ {m' : Machine}, (Region.loading kept).holds m' →
      ∀ v ∈ placed.values, v ∈ m'.anchors := fun loading v there => loading.kept v (sub v there)
  refine (meets_loadEssences sub f.essences).bind fun essences m₁ at₁ keeps => ?_
  refine (Meets.gather keeps (meets_loadMatter (wider at₁) f.matter)).bind
    fun matter m₂ at₂ keeps => ?_
  refine (Meets.gather keeps (meets_journeys (wider at₂) f.recollections)).bind
    fun recollections m₃ at₃ keeps => ?_
  refine (Meets.gather keeps (meets_journeys (wider at₃) f.changes)).bind
    fun changes m₄ at₄ keeps => ?_
  refine (Meets.gather keeps (meets_constructor (wider at₄) f.imitate)).bind
    fun imitate m₅ at₅ keeps => ?_
  refine (Meets.gather keeps (meets_forms (wider at₅) f.parents)).bind
    fun parents m₆ _ keeps => .pure fun _ => keeps

theorem meets_fillJourneys (sub : ∀ v ∈ placed.values, v ∈ kept)
    (journeys : List (Journey × Handle)) :
    Meets (.loading kept) env (fillJourneys placed journeys) m fun _ _ => True := by
  induction journeys generalizing m with
  | nil => exact .pure fun _ => trivial
  | cons entry rest ih =>
    obtain ⟨j, h⟩ := entry
    refine (meets_loadPatterns sub j.patterns).bind fun patterns m₁ _ keeps => ?_
    refine (meets_journey False.elim).discard.bind ?_
    rintro _ m₂ _ ⟨old, rfl, used⟩
    refine Meets.bind (P := fun _ _ => True) (.changes (fun _ => rfl) (fun loading =>
      ⟨loading.filled used rfl fun v member => ?_, trivial⟩) False.elim) fun _ _ _ _ => ih
    obtain ⟨p, there, part⟩ := List.mem_flatMap.mp member
    exact (keeps p there v part).refers loading.closed

theorem meets_fillForms (sub : ∀ v ∈ placed.values, v ∈ kept) (forms : List (Form × Handle)) :
    Meets (.loading kept) env (fillForms placed forms) m fun _ _ => True := by
  induction forms generalizing m with
  | nil => exact .pure fun _ => trivial
  | cons entry rest ih =>
    obtain ⟨f, h⟩ := entry
    refine (meets_loadForm sub f).bind fun filled m₁ _ keeps => ?_
    refine Meets.bind (P := fun _ _ => True) ?_ fun _ _ _ _ => ih
    refine (meets_form False.elim).discard.bind ?_
    rintro _ m₂ _ ⟨old, rfl, used⟩
    exact .changes (fun _ => rfl) (fun loading => ⟨loading.filled used rfl fun v member =>
      (keeps v member).refers loading.closed, trivial⟩) False.elim

end Objects

section Programs

variable {placed : Placed}

theorem meets_loadGlobals (sub : ∀ v ∈ placed.values, v ∈ kept) (globals : List Global) :
    Meets (.loading kept) env (loadGlobals placed globals) m fun _ _ => True := by
  induction globals generalizing m with
  | nil => exact .pure fun _ => trivial
  | cons g rest ih =>
    refine (meets_loadConstant sub g.value).bind fun v m₁ _ keeps => ?_
    exact Meets.bind (P := fun _ _ => True) (.changes (fun _ => rfl) (fun loading =>
      ⟨⟨loading.closed.defineGlobal g.name (keeps.refers loading.closed), loading.frames,
        loading.kept⟩, trivial⟩) fun _ => .same rfl rfl) fun _ _ _ _ => ih

/-- The global that receives the arguments is chosen at the end. -/
theorem meets_receiver (index : Option UInt32) {journeys : List Value} :
    Meets (.loading []) env (match index with
      | none => pure journeys
      | some index => do
        set (← ofExcept ((← get).setArgvGlobal index.toNat))
        return journeys) m fun _ _ => True := by
  split
  · exact .pure fun _ => trivial
  · refine .installs (fun n => ?_) False.elim (fun m' same loading => ?_) (fun _ _ => False.elim)
      fun _ _ => .pure fun _ => trivial
    · unfold Machine.setArgvGlobal
      split <;> split <;> first | rfl | contradiction
    · unfold Machine.setArgvGlobal at same
      split at same
      · cases same
        exact loading.within (.same loading.closed rfl rfl rfl rfl rfl rfl)
      · contradiction

theorem meets_link (image : Image) : Meets (.loading []) env (link image) m fun _ _ => True := by
  refine (meets_placeAll (v := .form) (by simp [Object.genus, Value.ofHandle?])
    (by simp [Object.links, JourneyMachine.Form.links])).bind fun forms m₁ _ placedForms => ?_
  refine (meets_placeAll (v := .journey) (by simp [Object.genus, Value.ofHandle?])
    (by simp [Object.links])).further.bind fun journeys m₂ _ post => ?_
  have placed₂ : ∀ v ∈ (Placed.mk forms.toArray journeys.toArray).values, v ∈ m₂.anchors := by
    intro v member
    rcases List.mem_append.mp member with form | journey
    · obtain ⟨h, there, rfl⟩ := List.mem_map.mp form
      exact post.2 _ (placedForms h (by simpa using there))
    · obtain ⟨h, there, rfl⟩ := List.mem_map.mp journey
      exact post.1 h (by simpa using there)
  refine (meets_fillJourneys placed₂ _).further.bind fun _ m₃ _ post => ?_
  have placed₃ := fun v there => post.2 v (placed₂ v there)
  refine (meets_fillForms placed₃ _).further.bind fun _ m₄ _ post => ?_
  have placed₄ := fun v there => post.2 v (placed₃ v there)
  refine (meets_loadGlobals placed₄ _).further.bind fun _ m₅ _ post => ?_
  have placed₅ := fun v there => post.2 v (placed₄ v there)
  dsimp only
  split
  · exact meets_receiver image.argvGlobal
  · rename_i index _
    refine (meets_placedJourney placed₅ index).further.bind fun main m₆ _ post => ?_
    refine .installs (fun n => rfl) False.elim (fun m' same loading => ?_) (fun _ _ => False.elim)
      fun m' _ => meets_receiver image.argvGlobal
    cases same
    exact ⟨loading.closed.setMain (post.1.refers loading.closed), loading.frames, by simp⟩

/-- A load into an empty program is a link whose pins are released; a throw of it becomes a fault. -/
theorem load_eq (image : Image) (env : Env) (m : Machine) :
    image.load env m = (if m.program.globals.size = 0 then settle (withPinned [] (link image))
      else fail (.malformed .programNotEmpty)) env m := rfl

/-- A load leaves the machine closed. -/
theorem load_closed {image : Image} {journeys : List Value} {m' : Machine} (closed : m.Closed)
    (frames : m.frames = []) (loaded : image.load env m = .ok journeys m') : m'.Closed := by
  have start : (Region.loading []).holds (m.pin []) := ⟨closed, frames, by simp⟩
  have linked : Meets (.loading []) env (link image) (m.pin []) fun _ _ => True := meets_link image
  have outcome := linked start False.elim
  rw [load_eq] at loaded
  split at loaded
  · unfold settle at loaded
    rw [withPinned_eq] at loaded
    cases same : link image env (m.pin []) with
    | ok result after =>
      rw [same] at loaded outcome
      cases loaded
      exact outcome.1.closed.unpinned _
    | error unwind after =>
      rw [same] at loaded
      cases unwind <;> contradiction
  · contradiction

end Programs

end Image

end JourneyMachine
