import JourneyMachine.Proofs.Closure.Bare
import JourneyMachine.Proofs.Closure.Extents

/-! The ancestors of a form. A form is searched before its parents, and each parent with all its own
ancestors before the next one. Where no form is its own ancestor the search has room enough, so what
it finds is what the first form in that order has of its own. -/

namespace JourneyMachine

namespace Heap

variable {heap : Heap} {h k : Handle} {hs order : List Handle} {name : String}

def parents (heap : Heap) (h : Handle) : List Handle :=
  match heap.form h with
  | .ok f => f.parents
  | .error _ => []

/-- Forms and their ancestors in the order of a search: each form, then its parents as they are
declared, and behind each of them its own ancestors. Ancestors that are shared come again. -/
inductive Lineage (heap : Heap) : List Handle → List Handle → Prop
  | nil : Lineage heap [] []
  | visit {h : Handle} {rest above later : List Handle} :
      Lineage heap (heap.parents h) above → Lineage heap rest later →
      Lineage heap (h :: rest) (h :: (above ++ later))

def isSame (heap : Heap) (ancestor h : Handle) : Except Fault Bool :=
  if h = ancestor then .ok true else do
    let _ ← heap.form h
    return false

def ownChange? (heap : Heap) (name : String) (h : Handle) : Except Fault (Option Handle) := do
  heap.journeyNamed? name (← heap.form h).changes

/-- The first recollection of that name that a form declares, or else the value of its first essence
of that name. -/
def ownAttribute? (heap : Heap) (name : String) (h : Handle) : Except Fault (Option Value) := do
  let f ← heap.form h
  match ← heap.journeyNamed? name f.recollections with
  | some recollection => return some (.journey recollection)
  | none => return (f.essences.find? (·.name == name)).map (·.value)

/-- There are no circles above a form, and it and its ancestors take fewer slots than there is room
for. -/
structure Bounded (heap : Heap) (room : Nat) (h : Handle) : Prop where
  acyclic : Acyclic heap.Parent (.form h)
  fewer : (heap.extent heap.Parent (.form h)).card < room

section Order

theorem mem_parents : k ∈ heap.parents h ↔ heap.Parent (.form h) (.form k) := by
  unfold parents
  constructor
  · intro member
    split at member
    · rename_i f read
      exact .parent (form_ok read) member
    · cases member
  · rintro ⟨used, member⟩
    simp [form, read, used, Object.form?, member]

theorem Acyclic.of_rank {r : Value → Value → Prop} (rank : Value → Nat)
    (falls : ∀ v w, r v w → rank w < rank v) (v : Value) : Acyclic r v := by
  have below : ∀ u w, Relation.TransGen r u w → rank w < rank u := by
    intro u w steps
    induction steps with
    | single step => exact falls _ _ step
    | tail _ step ih => exact (falls _ _ step).trans ih
  exact fun w _ circle => absurd (below w w circle) (Nat.lt_irrefl _)

theorem Bounded.room (acyclic : Acyclic heap.Parent (.form h)) : heap.Bounded heap.chainRoom h where
  acyclic := acyclic
  fewer := Nat.lt_succ_of_le (extent_le_capacity heap heap.Parent (.form h))

/-- The form itself is not among the ancestors of its parents. -/
theorem Bounded.parent {room : Nat} (bounded : heap.Bounded (room + 1) h)
    (member : k ∈ heap.parents h) : heap.Bounded room k := by
  have step := mem_parents.mp member
  have acyclic := bounded.acyclic
  constructor
  · exact acyclic.below (.single step)
  · have left : (heap.extent heap.Parent (.form k)).card < (heap.extent heap.Parent (.form h)).card := by
      apply Finset.card_lt_card
      rw [Finset.ssubset_iff_of_subset (extent_step step)]
      apply Exists.intro h.slot
      obtain ⟨used, _⟩ := id step
      constructor
      · exact mem_extent.mpr ⟨lt_capacity used, _, rfl, .refl⟩
      · intro again
        obtain ⟨_, v, same, inside⟩ := mem_extent.mp again
        have whole : v = .form h := by
          rcases inside.cases_tail with rfl | ⟨_, _, ⟨_, _⟩⟩ <;> cases same <;> rfl
        subst whole
        exact acyclic _ .refl (.head' step inside)
    have fewer := bounded.fewer
    omega

theorem Lineage.unique {other : List Handle} (lineage : heap.Lineage hs order)
    (again : heap.Lineage hs other) : other = order := by
  induction lineage generalizing other with
  | nil =>
    cases again
    rfl
  | visit _ _ above later =>
    cases again with
    | visit up next => rw [above up, later next]

theorem exists_lineage (room : Nat) (hs : List Handle) (bounded : ∀ h ∈ hs, heap.Bounded room h) :
    ∃ order, heap.Lineage hs order := by
  induction room generalizing hs with
  | zero =>
    cases hs with
    | nil => exact ⟨[], .nil⟩
    | cons h rest => exact absurd (bounded h List.mem_cons_self).fewer (Nat.not_lt_zero _)
  | succ room up =>
    induction hs with
    | nil => exact ⟨[], .nil⟩
    | cons h rest ih =>
      obtain ⟨later, next⟩ := ih fun k member => bounded k (List.mem_cons_of_mem _ member)
      obtain ⟨above, first⟩ := up (heap.parents h) fun k member =>
        (bounded h List.mem_cons_self).parent member
      exact ⟨_, .visit first next⟩

theorem descends_cases : heap.Descends h k ↔ h = k ∨ ∃ p ∈ heap.parents h, heap.Descends p k := by
  constructor
  · intro descends
    rcases descends.cases_head with same | ⟨_, step, above⟩
    · exact .inl (Value.form.inj same)
    · have member := step
      obtain ⟨_, _⟩ := step
      exact .inr ⟨_, mem_parents.mpr member, above⟩
  · rintro (rfl | ⟨p, member, above⟩)
    · exact .refl
    · exact .head (mem_parents.mp member) above

/-- The order has the forms and their ancestors, and nothing else. -/
theorem Lineage.mem_iff (lineage : heap.Lineage hs order) :
    k ∈ order ↔ ∃ h ∈ hs, heap.Descends h k := by
  induction lineage with
  | nil => simp
  | @visit h rest above later _ _ up next =>
    simp only [List.mem_cons, List.mem_append, exists_eq_or_imp, descends_cases (h := h), up, next,
      or_assoc, eq_comm (a := k)]

end Order

section Search

variable {α β : Type}

theorem findSomeM?_append {f : α → Except Fault (Option β)} (l after : List α) :
    (l ++ after).findSomeM? f = (do
      match ← l.findSomeM? f with
      | some b => return some b
      | none => after.findSomeM? f) := by
  induction l with
  | nil => rfl
  | cons a rest ih =>
    rw [List.cons_append, List.findSomeM?_cons, List.findSomeM?_cons, bind_assoc]
    apply bind_congr
    intro found
    cases found with
    | none => exact ih
    | some b => rfl

theorem findSomeM?_ok {f : α → Except Fault (Option β)} {g : α → Option β} {l : List α}
    (each : ∀ a ∈ l, f a = .ok (g a)) : l.findSomeM? f = .ok (l.findSome? g) := by
  induction l with
  | nil => rfl
  | cons a rest ih =>
    rw [List.findSomeM?_cons, List.findSome?_cons, each a List.mem_cons_self]
    cases g a with
    | none => exact ih fun b member => each b (List.mem_cons_of_mem _ member)
    | some b => rfl

theorem findM?_ok {p : α → Except Fault Bool} {q : α → Bool} {l : List α}
    (each : ∀ a ∈ l, p a = .ok (q a)) : l.findM? p = .ok (l.find? q) := by
  induction l with
  | nil => rfl
  | cons a rest ih =>
    rw [List.findM?, List.find?_cons, each a List.mem_cons_self]
    cases q a with
    | false => exact ih fun b member => each b (List.mem_cons_of_mem _ member)
    | true => rfl

/-- A test as a search for something that has nothing to tell. -/
def sought (f : α → Except Fault Bool) (a : α) : Except Fault (Option Unit) := do
  return if ← f a then some () else none

theorem anyM_eq (f : α → Except Fault Bool) (l : List α) :
    l.anyM f = (do return (← l.findSomeM? (sought f)).isSome) := by
  induction l with
  | nil => rfl
  | cons a rest ih =>
    rw [List.anyM, List.findSomeM?_cons, sought, ih]
    cases f a with
    | error fault => rfl
    | ok found => cases found <;> rfl

/-- A search asks each form before its parents. -/
def Climbs (heap : Heap) (search : Nat → Handle → Except Fault (Option β))
    (look : Handle → Except Fault (Option β)) : Prop :=
  ∀ room h, search (room + 1) h = do
    match ← look h with
    | some b => return some b
    | none => (heap.parents h).findSomeM? (search room)

variable {search : Nat → Handle → Except Fault (Option β)}
  {look : Handle → Except Fault (Option β)}

/-- What is asked of each form before its parents is asked in the order of the lineage. -/
theorem Climbs.visits (climbs : heap.Climbs search look) (lineage : heap.Lineage hs order) {room : Nat}
    (bounded : ∀ h ∈ hs, heap.Bounded room h) :
    hs.findSomeM? (search room) = order.findSomeM? look := by
  -- The room falls by one above each form, and so does the count of slots that its ancestors take.
  induction lineage generalizing room with
  | nil => rfl
  | @visit h rest above later _ _ up next =>
    have first := bounded h List.mem_cons_self
    cases room with
    | zero => exact absurd first.fewer (Nat.not_lt_zero _)
    | succ room =>
      rw [List.findSomeM?_cons, List.findSomeM?_cons, climbs, bind_assoc, findSomeM?_append,
        ← up fun k member => first.parent member,
        ← next fun k member => bounded k (List.mem_cons_of_mem _ member)]
      apply bind_congr
      intro found
      cases found <;> rfl

theorem Climbs.root (climbs : heap.Climbs search look) (lineage : heap.Lineage [h] order)
    (acyclic : Acyclic heap.Parent (.form h)) :
    search heap.chainRoom h = order.findSomeM? look := by
  have bounded : ∀ k ∈ [h], heap.Bounded heap.chainRoom k := by simp [Bounded.room acyclic]
  rw [← climbs.visits lineage bounded, List.findSomeM?_cons, List.findSomeM?_nil]
  cases search heap.chainRoom h with
  | error fault => rfl
  | ok found => cases found <;> rfl

theorem climbs_descends (ancestor : Handle) :
    heap.Climbs (fun room => sought (heap.descendsWithin ancestor room))
      (sought (heap.isSame ancestor)) := by
  intro room h
  show sought (heap.descendsWithin ancestor (room + 1)) h = _
  by_cases same : h = ancestor
  · simp only [sought, descendsWithin, isSame, same, if_true]
    rfl
  · simp only [sought, descendsWithin, isSame, same, if_false, parents]
    cases heap.form h with
    | error fault => rfl
    | ok f =>
      show (do return if ← f.parents.anyM (heap.descendsWithin ancestor room) then some () else none) =
        f.parents.findSomeM? (sought (heap.descendsWithin ancestor room))
      rw [anyM_eq]
      cases f.parents.findSomeM? (sought (heap.descendsWithin ancestor room)) with
      | error fault => rfl
      | ok found => cases found <;> rfl

theorem climbs_change (name : String) :
    heap.Climbs (heap.changeWithin name) (heap.ownChange? name) := by
  intro room h
  unfold parents ownChange?
  rw [changeWithin]
  cases heap.form h with
  | error fault => rfl
  | ok f =>
    show (heap.journeyNamed? name f.changes >>= _) = heap.journeyNamed? name f.changes >>= _
    apply bind_congr
    intro found
    cases found <;> rfl

theorem climbs_attribute (name : String) :
    heap.Climbs (heap.attributeWithin name) (heap.ownAttribute? name) := by
  intro room h
  unfold parents ownAttribute?
  rw [attributeWithin]
  cases heap.form h with
  | error fault => rfl
  | ok f =>
    show (heap.journeyNamed? name f.recollections >>= _) =
      (heap.journeyNamed? name f.recollections >>= _) >>= _
    rw [bind_assoc]
    apply bind_congr
    intro found
    cases found with
    | some recollection => rfl
    | none => cases f.essences.find? (·.name == name) <;> rfl

theorem isDescendant_eq (lineage : heap.Lineage [h] order)
    (acyclic : Acyclic heap.Parent (.form h)) (ancestor : Handle) :
    heap.isDescendant h ancestor = order.anyM (heap.isSame ancestor) := by
  have found := (climbs_descends ancestor).root lineage acyclic
  rw [anyM_eq, ← found]
  unfold isDescendant sought
  cases heap.descendsWithin ancestor heap.chainRoom h with
  | error fault => rfl
  | ok same => cases same <;> rfl

end Search

section Whole

def named? (heap : Heap) (name : String) (journeys : List Handle) : Option Handle :=
  journeys.find? fun k => ((heap.get? k).bind Object.journey?).any (·.name == name)

def changeIn? (heap : Heap) (name : String) (h : Handle) : Option Handle :=
  ((heap.get? h).bind Object.form?).bind fun f => heap.named? name f.changes

/-- The first recollection of that name of a form, or else the value of its first essence of that
name. -/
def attributeIn? (heap : Heap) (name : String) (h : Handle) : Option Value :=
  ((heap.get? h).bind Object.form?).bind fun f =>
    ((heap.named? name f.recollections).map Value.journey).or
      ((f.essences.find? (·.name == name)).map (·.value))

/-- A form whose changes and recollections are journeys. -/
structure Whole (heap : Heap) (h : Handle) : Prop where
  form : heap.Holds .form h
  changes : ∀ f, heap.get? h = some (.form f) → ∀ k ∈ f.changes, heap.Holds .journey k
  recollections : ∀ f, heap.get? h = some (.form f) → ∀ k ∈ f.recollections, heap.Holds .journey k

theorem journeyNamed?_ok (name : String) {journeys : List Handle} (each : ∀ k ∈ journeys, heap.Holds .journey k) :
    heap.journeyNamed? name journeys = .ok (heap.named? name journeys) := by
  apply findM?_ok
  intro k member
  obtain ⟨o, used, genus⟩ := each k member
  cases o <;> try contradiction
  simp only [journey, read, used, Object.journey?, Option.bind_some, Option.any_some]
  rfl

theorem Whole.read (whole : heap.Whole h) :
    ∃ f, heap.get? h = some (.form f) ∧ heap.form h = .ok f := by
  obtain ⟨o, used, genus⟩ := whole.form
  cases o <;> try contradiction
  exact ⟨_, used, read_some used rfl⟩

theorem Whole.isSame (whole : heap.Whole h) (ancestor : Handle) :
    ∃ b, heap.isSame ancestor h = .ok b ∧ (b = true ↔ h = ancestor) := by
  obtain ⟨f, _, done⟩ := whole.read
  by_cases same : h = ancestor
  · exact ⟨true, by simp [Heap.isSame, same], by simp [same]⟩
  · simp only [Heap.isSame, same, if_false, done]
    exact ⟨false, rfl, by simp⟩

theorem Whole.ownChange? (whole : heap.Whole h) :
    heap.ownChange? name h = .ok (heap.changeIn? name h) := by
  obtain ⟨f, used, done⟩ := whole.read
  have named := journeyNamed?_ok name (whole.changes f used)
  simp only [Heap.ownChange?, changeIn?, done, used, Object.form?, Option.bind_some]
  exact named

theorem Whole.ownAttribute? (whole : heap.Whole h) :
    heap.ownAttribute? name h = .ok (heap.attributeIn? name h) := by
  obtain ⟨f, used, done⟩ := whole.read
  have named := journeyNamed?_ok name (whole.recollections f used)
  simp only [Heap.ownAttribute?, attributeIn?, done, used, Object.form?, Option.bind_some]
  show (heap.journeyNamed? name f.recollections >>= _) = _
  rw [named]
  cases heap.named? name f.recollections <;> rfl

/-- In a closed heap the ancestors of a form are forms, and what they declare is there. -/
theorem Closed.whole (closed : heap.Closed) (refers : heap.Refers (.form h))
    (descends : heap.Descends h k) : heap.Whole k where
  form := by
    apply (refers_form).mp
    rcases descends.cases_tail with same | ⟨v, _, step⟩
    · rwa [same]
    · exact closed.leads_parent.refers v _ step
  changes _ used _ := closed.change used
  recollections _ used _ := closed.recollection used

end Whole

end Heap

namespace Run

variable {m : Machine} {h : Handle}

/-- The ancestors of a form without circles above it have an order in which a search goes through
them, whatever is looked for. Where they are all there, the search tells whether a form is among them,
and finds the change or the attribute of the first one that has it. -/
theorem lineage_searched (acyclic : Heap.Acyclic m.heap.Parent (.form h)) :
    ∃ order, m.heap.Lineage [h] order ∧ (∀ k, k ∈ order ↔ m.heap.Descends h k) ∧
      (∀ k, m.heap.isDescendant h k = order.anyM (m.heap.isSame k)) ∧
      (∀ name, m.heap.change? h name = order.findSomeM? (m.heap.ownChange? name)) ∧
      (∀ name env, name ≠ "genus" → name ≠ "length" → attribute? (.form h) name env m =
        onHeap (fun heap => order.findSomeM? (heap.ownAttribute? name)) env m) ∧
      ((∀ k ∈ order, m.heap.Whole k) →
        (∀ k, ∃ b, m.heap.isDescendant h k = .ok b ∧ (b = true ↔ m.heap.Descends h k)) ∧
        (∀ name, m.heap.change? h name = .ok (order.findSome? (m.heap.changeIn? name))) ∧
        ∀ name env, name ≠ "genus" → name ≠ "length" →
          attribute? (.form h) name env m =
            .ok (order.findSome? (m.heap.attributeIn? name)) m) := by
  have bounded : ∀ k ∈ [h], m.heap.Bounded m.heap.chainRoom k := by
    simp [Heap.Bounded.room acyclic]
  -- All three searches climb the same way, and so meet the forms in one order.
  obtain ⟨order, lineage⟩ := Heap.exists_lineage _ [h] bounded
  have members : ∀ k, k ∈ order ↔ m.heap.Descends h k := by simp [lineage.mem_iff]
  have descended := Heap.isDescendant_eq lineage acyclic
  have changed : ∀ name, m.heap.change? h name = order.findSomeM? (m.heap.ownChange? name) :=
    fun name => (Heap.climbs_change name).root lineage acyclic
  have attributed : ∀ name env, name ≠ "genus" → name ≠ "length" → attribute? (.form h) name env m =
      onHeap (fun heap => order.findSomeM? (heap.ownAttribute? name)) env m := by
    intro name env genus length
    simp only [attribute?, genus, length, if_false, onHeap, Heap.attribute?]
    rw [(Heap.climbs_attribute name).root lineage acyclic]
  refine ⟨order, lineage, members, descended, changed, attributed, fun whole => ⟨?_, ?_, ?_⟩⟩
  · intro k
    have each : ∀ a ∈ order, ∃ b, m.heap.isSame k a = .ok b ∧ (b = true ↔ a = k) :=
      fun a member => (whole a member).isSame k
    obtain ⟨b, done, meaning⟩ := Heap.anyM_ok each
    refine ⟨b, (descended k).trans done, ?_⟩
    simp [meaning, members]
  · intro name
    rw [changed]
    exact Heap.findSomeM?_ok fun k member => (whole k member).ownChange?
  · intro name env genus length
    rw [attributed name env genus length, onHeap,
      Heap.findSomeM?_ok fun k member => (whole k member).ownAttribute?]

/-- A form with two parents that share one. The shared one has an essence that the second parent
shadows too late, and the second parent has a recollection and an essence of one name. -/
def diamond : Machine := bare [
  .form { name := "Base", essences := [⟨"x", .numeral 1, none⟩], changes := [⟨4⟩] },
  .form { name := "Left", parents := [⟨0⟩] },
  .form { name := "Right", essences := [⟨"x", .numeral 2, none⟩, ⟨"y", .numeral 3, none⟩],
          recollections := [⟨4⟩], changes := [⟨5⟩], parents := [⟨0⟩] },
  .form { name := "Bottom", parents := [⟨1⟩, ⟨2⟩] },
  .journey { name := "y" },
  .journey { name := "y" }]

theorem diamond_closed : diamond.heap.Closed := bare_heap_closed (by decide)

theorem diamond_order : diamond.heap.Lineage [⟨3⟩] [⟨3⟩, ⟨1⟩, ⟨0⟩, ⟨2⟩, ⟨0⟩] := by
  have base : diamond.heap.Lineage [⟨0⟩] (⟨0⟩ :: ([] ++ [])) := .visit .nil .nil
  have right : diamond.heap.Lineage [⟨2⟩] (⟨2⟩ :: ([⟨0⟩] ++ [])) := .visit base .nil
  have both : diamond.heap.Lineage [⟨1⟩, ⟨2⟩] (⟨1⟩ :: ([⟨0⟩] ++ [⟨2⟩, ⟨0⟩])) := .visit base right
  have bottom : diamond.heap.Lineage [⟨3⟩] (⟨3⟩ :: ([⟨1⟩, ⟨0⟩, ⟨2⟩, ⟨0⟩] ++ [])) := .visit both .nil
  exact bottom

theorem bare_acyclic {objects : List Object} (v : Value)
    (falls : ∀ p ∈ objects.zipIdx, ∀ f ∈ p.1.form?, ∀ k ∈ f.parents, k.slot < p.2) :
    Heap.Acyclic (bare objects).heap.Parent v := by
  apply Heap.Acyclic.of_rank fun v => (v.handle?.map (·.slot)).getD 0
  rintro _ _ ⟨used, member⟩
  rw [bare_get] at used
  exact falls (_, _) (List.mem_zipIdx_iff_getElem?.mpr used) _ rfl _ member

theorem diamond_acyclic : Heap.Acyclic diamond.heap.Parent (.form ⟨3⟩) :=
  bare_acyclic _ (by decide)

/-- The shared parent is searched before the second one, recollections come before essences, and what
no ancestor has is not there. -/
theorem diamond_searched :
    Heap.Acyclic diamond.heap.Parent (.form ⟨3⟩) ∧
    diamond.heap.isDescendant ⟨3⟩ ⟨0⟩ = .ok true ∧
    diamond.heap.change? ⟨3⟩ "y" = .ok (some ⟨4⟩) ∧ ∀ env,
    attribute? (.form ⟨3⟩) "x" env diamond = .ok (some (.numeral 1)) diamond ∧
    attribute? (.form ⟨3⟩) "y" env diamond = .ok (some (.journey ⟨4⟩)) diamond ∧
    attribute? (.form ⟨3⟩) "z" env diamond = .ok none diamond := by
  obtain ⟨order, lineage, members, _, _, _, found⟩ := lineage_searched diamond_acyclic
  cases diamond_order.unique lineage
  have refers : diamond.heap.Refers (.form ⟨3⟩) := bare_refers (by decide)
  obtain ⟨descends, change, value⟩ := found fun k member =>
    diamond_closed.whole refers ((members k).mp member)
  refine ⟨diamond_acyclic, ?_, change "y", fun env => ⟨?_, ?_, ?_⟩⟩
  · obtain ⟨b, done, meaning⟩ := descends ⟨0⟩
    have above : b = true := meaning.mpr ((members ⟨0⟩).mp (by decide))
    rwa [above] at done
  · exact value "x" env (by decide) (by decide)
  · exact value "y" env (by decide) (by decide)
  · exact value "z" env (by decide) (by decide)

/-- A form that has nothing, and a free slot. -/
def plain : Machine :=
  let m := bare [.form { name := "Plain" }]
  { m with heap.arena.slots := m.heap.arena.slots.push {} }

theorem plain_get (h : Handle) {f : Form} (used : plain.heap.get? h = some (.form f)) :
    f.parents = [] := by
  rcases h with ⟨slot⟩
  match slot with
  | 0 => cases used; rfl
  | 1 => cases used
  | _ + 2 => cases used

/-- The genus is there although neither the form nor an ancestor has an attribute of that name. -/
theorem plain_genus : Heap.Acyclic plain.heap.Parent (.form ⟨0⟩) ∧
    plain.heap.Lineage [⟨0⟩] [⟨0⟩] ∧ plain.heap.attributeIn? "genus" ⟨0⟩ = none ∧
    ∀ env, ∃ t m, attribute? (.form ⟨0⟩) "genus" env plain = .ok (some (.text t)) m ∧
      m.heap.get? t = some (.text "Form") := by
  have alone : plain.heap.Lineage [⟨0⟩] (⟨0⟩ :: ([] ++ [])) := .visit .nil .nil
  have acyclic : Heap.Acyclic plain.heap.Parent (.form ⟨0⟩) := by
    apply Heap.Acyclic.shallow
    rintro _ _ ⟨used, member⟩
    rw [plain_get _ used] at member
    cases member
  refine ⟨acyclic, alone, rfl, fun env => ?_⟩
  have free : Arena.nextFree? plain.heap.arena.slots plain.heap.arena.cursor = some 1 := by
    rw [Arena.nextFree?]
    rfl
  have placed : allocate (.text "Form") env plain =
      .ok ⟨1⟩ { plain with heap := plain.heap.filled ⟨1⟩ (.text "Form") } := by
    simp only [allocate, Heap.allocate, Arena.allocate, free]
    rfl
  have text : newText "Form" env plain = .ok (.text ⟨1⟩) _ := bind_ok placed
  have found : attribute? (.form ⟨0⟩) "genus" env plain = .ok (some (.text ⟨1⟩)) _ := bind_ok text
  exact ⟨_, _, found, rfl⟩

end Run

end JourneyMachine
