import JourneyMachine.Image.Load
import JourneyMachine.Proofs.Heap.Allocation

/-! What an image describes. Its texts, books, forms and journeys become objects, everything else is
a scalar or a reference. A description names the objects that were made for it and for nothing
else, so that the objects of a whole image are those of its parts put together. -/

namespace JourneyMachine.Image

section Extent

mutual

/-- A constant and the constants inside it. -/
def Constant.parts : Constant → List Constant
  | .book pages => .book pages :: Constant.partsOf pages
  | c => [c]

def Constant.partsOf : List Constant → List Constant
  | [] => []
  | c :: rest => c.parts ++ Constant.partsOf rest

end

namespace Constant

def takesSlot : Constant → Bool
  | .text _ | .book _ => true
  | _ => false

def journeyIndex? : Constant → Option UInt32
  | .journey i => some i
  | _ => none

def formIndex? : Constant → Option UInt32
  | .form i => some i
  | _ => none

def objectCount (c : Constant) : Nat := c.parts.countP takesSlot

/-- Every index inside a constant is one of so many forms and journeys. -/
def Resolves (forms journeys : Nat) (c : Constant) : Prop :=
  ∀ part ∈ c.parts, (∀ i ∈ part.journeyIndex?, i.toNat < journeys) ∧
    ∀ i ∈ part.formIndex?, i.toNat < forms

theorem partsOf_eq (constants : List Constant) : partsOf constants = constants.flatMap parts := by
  induction constants with
  | nil => simp [partsOf]
  | cons c rest ih => simp [partsOf, ih]

theorem objectCount_book (pages : List Constant) :
    objectCount (.book pages) = 1 + (pages.map objectCount).sum := by
  have inside : (pages.flatMap parts).countP takesSlot = (pages.map objectCount).sum := by
    rw [List.countP_flatMap]
    rfl
  rw [objectCount, parts, partsOf_eq, List.countP_cons_of_pos rfl, inside, Nat.add_comm]

variable {forms journeys : Nat}

theorem resolves_book {pages : List Constant} :
    Resolves forms journeys (.book pages) ↔ ∀ page ∈ pages, page.Resolves forms journeys := by
  simp only [Resolves, parts, partsOf_eq, List.forall_mem_cons, List.forall_mem_flatMap]
  exact and_iff_right ⟨nofun, nofun⟩

theorem resolves_alone {c : Constant} (alone : c.parts = [c])
    (journey : c.journeyIndex? = none) (form : c.formIndex? = none) :
    True ↔ c.Resolves forms journeys := by
  simp [Resolves, alone, journey, form]

theorem resolves_journey {i : UInt32} :
    Resolves forms journeys (.journey i) ↔ i.toNat < journeys := by
  simp [Resolves, parts, journeyIndex?, formIndex?]

theorem resolves_form {i : UInt32} :
    Resolves forms journeys (.form i) ↔ i.toNat < forms := by
  simp [Resolves, parts, journeyIndex?, formIndex?]

end Constant

def Journey.constants (j : Journey) : List Constant := j.patterns.flatMap (·.block.constants)

/-- The constants of a form: the values and the guards of its fields. -/
def Form.constants (f : Form) : List Constant :=
  f.essences.flatMap (fun e => e.value :: e.guard.toList) ++ f.matter.flatMap (·.guard.toList)

/-- The indices of a form that are not inside its constants and stand for journeys. -/
def Form.journeyIndices (f : Form) : List UInt32 := f.recollections ++ f.changes ++ f.imitate.toList

def Form.Resolves (forms journeys : Nat) (f : Form) : Prop :=
  (∀ c ∈ f.constants, c.Resolves forms journeys) ∧
  (∀ i ∈ f.journeyIndices, i.toNat < journeys) ∧ ∀ i ∈ f.parents, i.toNat < forms

variable (image : Image)

def constants : List Constant :=
  image.journeys.flatMap Journey.constants ++ image.forms.flatMap Form.constants ++
    image.globals.map (·.value)

def objectCount : Nat :=
  image.forms.length + image.journeys.length +
    (Constant.partsOf image.constants).countP Constant.takesSlot

def journeyIndices : List UInt32 :=
  (Constant.partsOf image.constants).filterMap Constant.journeyIndex? ++
    image.forms.flatMap Form.journeyIndices ++ image.main.toList

def formIndices : List UInt32 :=
  (Constant.partsOf image.constants).filterMap Constant.formIndex? ++
    image.forms.flatMap (·.parents)

/-- Every index of an image stands for something. -/
def InRange : Prop :=
  (∀ i ∈ image.journeyIndices, i.toNat < image.journeys.length) ∧
  (∀ i ∈ image.formIndices, i.toNat < image.forms.length) ∧
  ∀ i ∈ image.argvGlobal, i.toNat < image.globals.length

-- Indices are looked up where they stand, never sought among all words.
instance : Decidable image.InRange :=
  @instDecidableAnd _ _ (List.decidableBAll _ image.journeyIndices)
    (@instDecidableAnd _ _ (List.decidableBAll _ image.formIndices)
      (Option.decidableForallMem image.argvGlobal))

end Extent

/-- The elements of two lists agree in pairs, and each pair with objects of its own. -/
inductive Each {α β : Type} (R : α → β → List Handle → Prop) :
    List α → List β → List Handle → Prop where
  | nil : Each R [] [] []
  | cons {a : α} {b : β} {own more : List Handle} {as : List α} {bs : List β} :
      R a b own → Each R as bs more → Each R (a :: as) (b :: bs) (own ++ more)

section Meaning

variable (heap : Heap) (placed : Placed) (builtins : Builtins)

/-- What the value of a constant is, and the objects that were made for it. -/
inductive Denotes : Constant → Value → List Handle → Prop where
  | ni : Denotes .ni .ni []
  | veracity (truth : Bool) : Denotes (.veracity truth) (.veracity truth) []
  | numeral (n : Int64) : Denotes (.numeral n) (.numeral n) []
  | text {content : String} {h : Handle} :
      heap.get? h = some (.text content) → Denotes (.text content) (.text h) [h]
  | journey {i : UInt32} {h : Handle} :
      placed.journeys[i.toNat]? = some h → Denotes (.journey i) (.journey h) []
  | form {i : UInt32} {h : Handle} :
      placed.forms[i.toNat]? = some h → Denotes (.form i) (.form h) []
  | exception : Denotes .exception (.form builtins.exception) []
  | ioError : Denotes .ioError (.form builtins.ioError) []
  | book {pages : List Constant} {values : Array Value} {h : Handle} {own : List Handle} :
      heap.get? h = some (.book values) → Each Denotes pages values.toList own →
      Denotes (.book pages) (.book h) (h :: own)

structure Parameter.Carried (p : Parameter) (q : JourneyMachine.Parameter) : Prop where
  name : q.name = p.name
  fallback : q.fallback = p.fallback.map (·.toNat)
  guard : q.guard = p.guard.map (·.toNat)

/-- A pattern with the parameters, the entry points, the code and the constants of an image. -/
structure Pattern.Carried (p : Pattern) (q : JourneyMachine.Pattern) (own : List Handle) :
    Prop where
  positional : List.Forall₂ Parameter.Carried p.positional q.positional
  keywords : List.Forall₂ Parameter.Carried p.keywords q.keywords
  splat : q.splat = p.splat
  splatsplat : q.splatsplat = p.splatsplat
  condition : q.condition = p.condition.map (·.toNat)
  start : q.start = p.start.toNat
  registers : q.block.registers = p.block.registers.toNat
  code : q.block.code.toList = p.block.code
  constants : Each (Denotes heap placed builtins) p.block.constants q.block.constants.toList own

def Journey.Carried (j : Journey) (h : Handle) (own : List Handle) : Prop :=
  ∃ q : JourneyMachine.Journey, heap.get? h = some (.journey q) ∧ q.name = j.name ∧
    Each (Pattern.Carried heap placed builtins) j.patterns q.patterns own

structure Essence.Carried (e : Essence) (q : JourneyMachine.Essence) (own : List Handle) :
    Prop where
  name : q.name = e.name
  values : Each (Denotes heap placed builtins) (e.value :: e.guard.toList)
    (q.value :: q.guard.toList) own

structure Matter.Carried (f : Matter) (q : JourneyMachine.Matter) (own : List Handle) : Prop where
  name : q.name = f.name
  guard : Each (Denotes heap placed builtins) f.guard.toList q.guard.toList own

structure Form.Filled (f : Form) (q : JourneyMachine.Form) (own : List Handle) : Prop where
  name : q.name = f.name
  fields : ∃ first second, own = first ++ second ∧
    Each (Essence.Carried heap placed builtins) f.essences q.essences first ∧
    Each (Matter.Carried heap placed builtins) f.matter q.matter second
  recollections : f.recollections.map (placed.journeys[·.toNat]?) = q.recollections.map some
  changes : f.changes.map (placed.journeys[·.toNat]?) = q.changes.map some
  imitate : f.imitate.map (placed.journeys[·.toNat]?) = q.imitate.map some
  parents : f.parents.map (placed.forms[·.toNat]?) = q.parents.map some

def Form.Carried (f : Form) (h : Handle) (own : List Handle) : Prop :=
  ∃ q, heap.get? h = some (.form q) ∧ f.Filled heap placed builtins q own

structure Global.Carried (g : Global) (entry : String × Value) (own : List Handle) : Prop where
  name : entry.1 = g.name
  value : Denotes heap placed builtins g.value entry.2 own

end Meaning

section Each

variable {α β : Type} {R S : α → β → List Handle → Prop} {as : List α} {bs : List β}
  {own base : List Handle}

theorem Each.imp (each : Each R as bs own)
    (step : ∀ a ∈ as, ∀ b ∈ bs, ∀ part, (∀ h ∈ part, h ∈ own) → R a b part → S a b part) :
    Each S as bs own := by
  induction each with
  | nil => exact .nil
  | @cons a b part rest as bs first _ ih =>
    refine .cons (step a (List.mem_cons_self ..) b (List.mem_cons_self ..) part ?_ first) (ih ?_)
    · exact fun h member => List.mem_append_left rest member
    · intro c there d also own' sub
      exact step c (List.mem_cons_of_mem a there) d (List.mem_cons_of_mem b also) own'
        fun h member => List.mem_append_right part (sub h member)

theorem Each.length (each : Each R as bs own) : as.length = bs.length := by
  induction each with
  | nil => rfl
  | cons _ _ ih => simp only [List.length_cons, ih]

/-- What the elements refer to is what they were made with or what was there before. -/
theorem Each.flatMap_sub {links : β → List Handle} (each : Each R as bs own)
    (step : ∀ a b part, R a b part → ∀ h ∈ links b, h ∈ part ∨ h ∈ base) :
    ∀ h ∈ bs.flatMap links, h ∈ own ∨ h ∈ base := by
  induction each with
  | nil => simp
  | @cons a b part rest as bs first _ ih =>
    intro h member
    rw [List.flatMap_cons, List.mem_append] at member
    rcases member with here | later
    · exact (step a b part first h here).imp_left fun inside => List.mem_append_left rest inside
    · exact (ih h later).imp_left fun inside => List.mem_append_right part inside

end Each

section Stability

/-- A description stays true while the objects it names stay as they are. -/
def Stable {α β : Type} (R : Heap → α → β → List Handle → Prop) : Prop :=
  ∀ heap after a b own, (∀ h ∈ own, after.get? h = heap.get? h) → R heap a b own → R after a b own

variable {α β : Type} {R : Heap → α → β → List Handle → Prop} {placed : Placed}
  {builtins : Builtins}

theorem Stable.each (stable : Stable R) : Stable fun heap => Each (R heap) := by
  intro heap after as bs own same each
  exact each.imp fun a _ b _ part sub => stable heap after a b part fun h member =>
    same h (sub h member)

theorem stable_denotes : Stable fun heap => Denotes heap placed builtins := by
  intro heap after c v own same denotes
  cases denotes with
  | ni => exact .ni
  | veracity truth => exact .veracity truth
  | numeral n => exact .numeral n
  | text found => exact .text ((same _ (List.mem_singleton_self _)).trans found)
  | journey found => exact .journey found
  | form found => exact .form found
  | exception => exact .exception
  | ioError => exact .ioError
  | @book pages values h own found each =>
    refine .book ((same h (List.mem_cons_self ..)).trans found) ?_
    refine each.imp fun page inside v _ part sub => stable_denotes heap after page v part ?_
    exact fun k member => same k (List.mem_cons_of_mem h (sub k member))
termination_by _ _ c => c

theorem stable_pattern : Stable fun heap => Pattern.Carried heap placed builtins := by
  intro heap after p q own same carried
  have constants := (stable_denotes).each heap after _ _ own same carried.constants
  exact { carried with constants }

theorem stable_essence : Stable fun heap => Essence.Carried heap placed builtins := by
  intro heap after e q own same carried
  have values := (stable_denotes).each heap after _ _ own same carried.values
  exact { carried with values }

theorem stable_matter : Stable fun heap => Matter.Carried heap placed builtins := by
  intro heap after f q own same carried
  have guard := (stable_denotes).each heap after _ _ own same carried.guard
  exact { carried with guard }

theorem stable_filled : Stable fun heap => Form.Filled heap placed builtins := by
  intro heap after f q own same filled
  obtain ⟨first, second, rfl, essences, matter⟩ := filled.fields
  refine { filled with fields := ⟨first, second, rfl, ?_, ?_⟩ }
  · exact (stable_essence).each heap after _ _ first
      (fun h member => same h (List.mem_append_left second member)) essences
  · exact (stable_matter).each heap after _ _ second
      (fun h member => same h (List.mem_append_right first member)) matter

theorem Journey.Carried.stable {heap after : Heap} {j : Journey} {h : Handle} {own : List Handle}
    (carried : j.Carried heap placed builtins h own) (here : after.get? h = heap.get? h)
    (same : ∀ k ∈ own, after.get? k = heap.get? k) : j.Carried after placed builtins h own := by
  obtain ⟨q, found, name, patterns⟩ := carried
  exact ⟨q, here.trans found, name, (stable_pattern).each heap after _ _ own same patterns⟩

theorem Form.Carried.stable {heap after : Heap} {f : Form} {h : Handle} {own : List Handle}
    (carried : f.Carried heap placed builtins h own) (here : after.get? h = heap.get? h)
    (same : ∀ k ∈ own, after.get? k = heap.get? k) : f.Carried after placed builtins h own := by
  obtain ⟨q, found, filled⟩ := carried
  exact ⟨q, here.trans found, stable_filled heap after f q own same filled⟩

end Stability

/-- Where the objects of an image are: its forms and journeys, and what was made for the constants
of each. -/
structure Layout where
  forms : List Handle
  journeys : List Handle
  ofJourneys : List Handle
  ofForms : List Handle
  ofGlobals : List Handle

namespace Layout

def objects (layout : Layout) : List Handle :=
  layout.forms ++ layout.journeys ++ layout.ofJourneys ++ layout.ofForms ++ layout.ofGlobals

/-- What indices stand for. -/
def placed (layout : Layout) : Placed := ⟨layout.forms.toArray, layout.journeys.toArray⟩

/-- The objects of a heap and the globals of a program are what an image describes. -/
structure Describes (layout : Layout) (image : Image) (heap : Heap) (builtins : Builtins)
    (globals : List (String × Value)) : Prop where
  journeys : Each (Journey.Carried heap layout.placed builtins) image.journeys layout.journeys
    layout.ofJourneys
  forms : Each (Form.Carried heap layout.placed builtins) image.forms layout.forms layout.ofForms
  globals : Each (Global.Carried heap layout.placed builtins) image.globals globals
    layout.ofGlobals

/-- A description stays true while the objects of the image stay as they are. -/
theorem Describes.stable {layout : Layout} {image : Image} {heap after : Heap} {builtins : Builtins}
    {globals : List (String × Value)} (describes : layout.Describes image heap builtins globals)
    (same : ∀ h ∈ layout.objects, after.get? h = heap.get? h) :
    layout.Describes image after builtins globals where
  journeys := describes.journeys.imp fun _ _ h there _ sub carried =>
    carried.stable (same h (by simp [objects, there])) fun k own =>
      same k (by simp [objects, sub k own])
  forms := describes.forms.imp fun _ _ h there _ sub carried =>
    carried.stable (same h (by simp [objects, there])) fun k own =>
      same k (by simp [objects, sub k own])
  globals := describes.globals.imp fun _ _ _ _ _ sub carried =>
    ⟨carried.name, stable_denotes _ _ _ _ _ (fun k own => same k (by simp [objects, sub k own]))
      carried.value⟩

/-- A machine into which an image was loaded has everything that the image describes, in slots that
nothing led to before. -/
structure Faithful (layout : Layout) (image : Image) (m : Machine) (journeys : List Value)
    (m' : Machine) : Prop where
  returned : journeys = layout.journeys.map .journey
  describes : layout.Describes image m'.heap m.builtins m'.program.globals.toList
  main : m'.program.main =
    (image.main.map (layout.journeys[·.toNat]?)).getD m.program.main
  argvGlobal : m'.program.argvGlobal =
    (image.argvGlobal.map fun i => some i.toNat).getD m.program.argvGlobal
  distinct : layout.objects.Nodup
  live : ∀ h ∈ layout.objects, m'.heap.isLive h = true
  fresh : ∀ h ∈ layout.objects, ¬ m.heap.Reachable m.roots h
  count : layout.objects.length = image.objectCount

end Layout

end JourneyMachine.Image
