import JourneyMachine.Proofs.Closure.Primitives
import Mathlib.Data.List.Perm.Subperm
import Mathlib.Data.List.Nodup

namespace JourneyMachine.Heap

/-- What a look-up that may fail gives; under `strict` it meets no free slot. -/
def Gives (strict : Prop) {α : Type} (x : Except Fault α) (Q : α → Prop) : Prop :=
  (∀ a, x = .ok a → Q a) ∧ (strict → ∀ slot, x ≠ .error (.dangling slot))

section Rules

variable {strict : Prop} {α β : Type} {Q : α → Prop}

theorem Gives.ok {a : α} (post : Q a) : Gives strict (.ok a) Q :=
  ⟨fun _ same => Except.ok.inj same ▸ post, fun _ _ => by simp⟩

theorem Gives.error {fault : Fault} (harmless : strict → ∀ slot, fault ≠ .dangling slot) :
    Gives strict (.error fault : Except Fault α) Q :=
  ⟨(fun _ same => by cases same), fun assumed slot same =>
    harmless assumed slot (Except.error.inj same)⟩

theorem Gives.bind {x : Except Fault α} {k : α → Except Fault β} {P : β → Prop}
    (first : Gives strict x Q) (next : ∀ a, Q a → Gives strict (k a) P) :
    Gives strict (x >>= k) P := by
  cases x with
  | ok a => exact next a (first.1 a rfl)
  | error fault =>
    exact .error fun assumed slot same => first.2 assumed slot (by rw [same])

theorem Gives.mapM {f : α → Except Fault β} {l : List α}
    (each : ∀ a ∈ l, Gives strict (f a) fun _ => True) : Gives strict (l.mapM f) fun _ => True := by
  induction l with
  | nil => exact .ok trivial
  | cons a rest ih =>
    rw [List.mapM_cons]
    refine (each a (List.mem_cons_self ..)).bind fun _ _ => ?_
    exact (ih fun b member => each b (List.mem_cons_of_mem _ member)).bind fun _ _ => .ok trivial

theorem Gives.anyM {f : α → Except Fault Bool} {l : List α}
    (each : ∀ a ∈ l, Gives strict (f a) fun _ => True) : Gives strict (l.anyM f) fun _ => True := by
  induction l with
  | nil => exact .ok trivial
  | cons a rest ih =>
    refine (each a (List.mem_cons_self ..)).bind fun found _ => ?_
    cases found with
    | true => exact .ok trivial
    | false => exact ih fun b member => each b (List.mem_cons_of_mem _ member)

theorem Gives.findSomeM? {f : α → Except Fault (Option β)} {l : List α} {P : β → Prop}
    (each : ∀ a ∈ l, Gives strict (f a) fun found => ∀ b, found = some b → P b) :
    Gives strict (l.findSomeM? f) fun found => ∀ b, found = some b → P b := by
  induction l with
  | nil => exact .ok fun _ same => by cases same
  | cons a rest ih =>
    refine (each a (List.mem_cons_self ..)).bind fun found post => ?_
    cases found with
    | some b => exact .ok post
    | none => exact ih fun c member => each c (List.mem_cons_of_mem _ member)

end Rules

section Reads

variable {strict : Prop} {heap : Heap} {h : Handle}

theorem gives_text (holds : strict → heap.Holds .text h) :
    Gives strict (heap.text h) fun content => heap.get? h = some (.text content) :=
  ⟨fun _ => text_ok, fun assumed => read_harmless (holds assumed)⟩

theorem gives_book (holds : strict → heap.Holds .book h) :
    Gives strict (heap.book h) fun pages => heap.get? h = some (.book pages) :=
  ⟨fun _ => book_ok, fun assumed => read_harmless (holds assumed)⟩

theorem gives_codex (holds : strict → heap.Holds .codex h) :
    Gives strict (heap.codex h) fun entries => heap.get? h = some (.codex entries) :=
  ⟨fun _ => codex_ok, fun assumed => read_harmless (holds assumed)⟩

theorem gives_form (holds : strict → heap.Holds .form h) :
    Gives strict (heap.form h) fun f => heap.get? h = some (.form f) :=
  ⟨fun _ => form_ok, fun assumed => read_harmless (holds assumed)⟩

theorem gives_imitation (holds : strict → heap.Holds .imitation h) :
    Gives strict (heap.imitation h) fun i => heap.get? h = some (.imitation i) :=
  ⟨fun _ => imitation_ok, fun assumed => read_harmless (holds assumed)⟩

theorem gives_journey (holds : strict → heap.Holds .journey h) :
    Gives strict (heap.journey h) fun j => heap.get? h = some (.journey j) :=
  ⟨fun _ => journey_ok, fun assumed => read_harmless (holds assumed)⟩

theorem gives_other (holds : strict → heap.Holds .other h) :
    Gives strict (heap.other h) fun o => heap.get? h = some (.other o) :=
  ⟨fun _ => other_ok, fun assumed => read_harmless (holds assumed)⟩

end Reads

section Fields

variable {heap : Heap} {h k : Handle} {f : Form} {i : Imitation}

theorem Closed.parent (closed : heap.Closed) (used : heap.get? h = some (.form f))
    (member : k ∈ f.parents) : heap.Holds .form k :=
  (refers_form).mp (closed h _ used _ (by simp [Object.links, Form.links, member]))

theorem Closed.change (closed : heap.Closed) (used : heap.get? h = some (.form f))
    (member : k ∈ f.changes) : heap.Holds .journey k :=
  (refers_journey).mp (closed h _ used _ (by simp [Object.links, Form.links, member]))

theorem Closed.recollection (closed : heap.Closed) (used : heap.get? h = some (.form f))
    (member : k ∈ f.recollections) : heap.Holds .journey k :=
  (refers_journey).mp (closed h _ used _ (by simp [Object.links, Form.links, member]))

theorem Closed.essence (closed : heap.Closed) (used : heap.get? h = some (.form f)) {e : Essence}
    (member : e ∈ f.essences) : heap.Refers e.value :=
  closed h _ used _ (by
    simp only [Object.links, Form.links, List.mem_append, List.mem_flatMap]
    exact .inl (.inl (.inl (.inl (.inl ⟨e, member, List.mem_cons_self ..⟩)))))

theorem Closed.own (closed : heap.Closed) (used : heap.get? h = some (.imitation i)) :
    heap.Holds .form i.form :=
  (refers_form).mp (closed h _ used _ (List.mem_cons_self ..))

theorem Closed.matter (closed : heap.Closed) (used : heap.get? h = some (.imitation i)) {v : Value}
    (member : v ∈ i.matter.toList) : heap.Refers v :=
  closed h _ used _ (List.mem_cons_of_mem _ member)

theorem holds_journey {j : Journey} (used : heap.get? h = some (.journey j)) :
    heap.Holds .journey h :=
  ⟨_, used, rfl⟩

end Fields

section Hierarchy

variable {strict : Prop} {heap : Heap}

theorem gives_descendsWithin (closed : heap.Closed) (ancestor : Handle) (room : Nat) {form : Handle}
    (holds : strict → heap.Holds .form form) :
    Gives strict (heap.descendsWithin ancestor room form) fun _ => True := by
  induction room generalizing form with
  | zero =>
    unfold descendsWithin
    split
    · exact .ok trivial
    · exact .error fun _ _ => by simp
  | succ room ih =>
    unfold descendsWithin
    split
    · exact .ok trivial
    · refine (gives_form holds).bind fun f used => ?_
      exact .anyM fun parent member => ih fun _ => closed.parent used member

theorem gives_isDescendant (closed : heap.Closed) (ancestor : Handle) {form : Handle}
    (holds : strict → heap.Holds .form form) :
    Gives strict (heap.isDescendant form ancestor) fun _ => True :=
  gives_descendsWithin closed ancestor _ holds

theorem gives_journeyNamed? (name : String) {journeys : List Handle}
    (holds : strict → ∀ h ∈ journeys, heap.Holds .journey h) :
    Gives strict (heap.journeyNamed? name journeys)
      fun found => ∀ c, found = some c → heap.Holds .journey c := by
  unfold journeyNamed?
  induction journeys with
  | nil => exact .ok fun _ same => by cases same
  | cons h rest ih =>
    have named : Gives strict (do return (← heap.journey h).name == name)
        fun _ => heap.Holds .journey h :=
      (gives_journey fun assumed => holds assumed h (List.mem_cons_self ..)).bind
        fun j used => .ok (holds_journey used)
    refine named.bind fun same own => ?_
    cases same with
    | true => exact .ok fun c equal => by cases equal; exact own
    | false => exact ih fun assumed k member => holds assumed k (List.mem_cons_of_mem _ member)

theorem gives_changeWithin (closed : heap.Closed) (name : String) (room : Nat) {form : Handle}
    (holds : strict → heap.Holds .form form) :
    Gives strict (heap.changeWithin name room form)
      fun found => ∀ c, found = some c → heap.Holds .journey c := by
  induction room generalizing form with
  | zero => exact .error fun _ _ => by simp
  | succ room ih =>
    refine (gives_form holds).bind fun f used => ?_
    refine (gives_journeyNamed? name fun _ h member => closed.change used member).bind
      fun found own => ?_
    cases found with
    | some change => exact .ok own
    | none => exact .findSomeM? fun parent member => ih fun _ => closed.parent used member

theorem gives_change? (closed : heap.Closed) (name : String) {form : Handle}
    (holds : strict → heap.Holds .form form) :
    Gives strict (heap.change? form name)
      fun found => ∀ c, found = some c → heap.Holds .journey c :=
  gives_changeWithin closed name _ holds

theorem gives_changeOf? (closed : heap.Closed) (name : String) {v : Value}
    (refers : strict → heap.Refers v) :
    Gives strict (heap.changeOf? v name)
      fun found => ∀ c, found = some c → heap.Holds .journey c := by
  cases v with
  | imitation h =>
    exact (gives_imitation fun assumed => (refers_imitation).mp (refers assumed)).bind
      fun i used => gives_change? closed name fun _ => closed.own used
  | _ => exact .ok fun _ same => by cases same

theorem gives_attributeWithin (closed : heap.Closed) (name : String) (room : Nat) {form : Handle}
    (holds : strict → heap.Holds .form form) :
    Gives strict (heap.attributeWithin name room form)
      fun found => ∀ v, found = some v → heap.Refers v := by
  induction room generalizing form with
  | zero => exact .error fun _ _ => by simp
  | succ room ih =>
    refine (gives_form holds).bind fun f used => ?_
    refine (gives_journeyNamed? name fun _ h member => closed.recollection used member).bind
      fun found own => ?_
    cases found with
    | some recollection =>
      refine .ok fun v same => ?_
      cases same
      exact (refers_journey).mpr (own recollection rfl)
    | none =>
      dsimp only
      split
      · rename_i essence there
        refine .ok fun v same => ?_
        cases same
        exact closed.essence used (List.mem_of_find?_eq_some there)
      · exact .findSomeM? fun parent member => ih fun _ => closed.parent used member

theorem gives_attribute? (closed : heap.Closed) (name : String) {form : Handle}
    (holds : strict → heap.Holds .form form) :
    Gives strict (heap.attribute? form name) fun found => ∀ v, found = some v → heap.Refers v :=
  gives_attributeWithin closed name _ holds

theorem gives_typeName (closed : heap.Closed) {v : Value} (refers : strict → heap.Refers v) :
    Gives strict (heap.typeName v) fun _ => True := by
  cases v with
  | imitation h =>
    refine (gives_imitation fun assumed => (refers_imitation).mp (refers assumed)).bind
      fun i used => ?_
    exact (gives_form fun _ => closed.own used).bind fun _ _ => .ok trivial
  | _ => exact .ok trivial

end Hierarchy

/-- The objects around a value are different slots, and `room` others are left. -/
structure Around (capacity room : Nat) (path : List Handle) : Prop where
  nodup : path.Nodup
  inside : ∀ h ∈ path, h.slot < capacity
  total : room + path.length = capacity

section Around

variable {capacity room : Nat} {path : List Handle} {h : Handle}

theorem around_nil (capacity : Nat) : Around capacity capacity [] :=
  ⟨.nil, fun _ member => absurd member List.not_mem_nil, rfl⟩

theorem Around.cons (around : Around capacity (room + 1) path) (fresh : h ∉ path)
    (inside : h.slot < capacity) : Around capacity room (h :: path) where
  nodup := List.nodup_cons.mpr ⟨fresh, around.nodup⟩
  inside k member := by
    rcases List.mem_cons.mp member with rfl | later
    · exact inside
    · exact around.inside k later
  total := by
    have total := around.total
    simp only [List.length_cons]
    omega

/-- There are no more different slots than the heap has. -/
theorem Around.room_left (around : Around capacity 0 path) (fresh : h ∉ path)
    (inside : h.slot < capacity) : False := by
  have more : ((h :: path).map Handle.slot).Nodup := by
    refine (List.nodup_cons.mpr ⟨fresh, around.nodup⟩).map ?_
    rintro ⟨a⟩ ⟨b⟩ same
    exact congrArg Handle.mk same
  have sub : (h :: path).map Handle.slot ⊆ List.range capacity := by
    intro i member
    obtain ⟨k, there, rfl⟩ := List.mem_map.mp member
    rcases List.mem_cons.mp there with rfl | later
    · exact List.mem_range.mpr inside
    · exact List.mem_range.mpr (around.inside k later)
  have bound := (more.subperm sub).length_le
  have total := around.total
  simp only [List.length_map, List.length_cons, List.length_range] at bound
  omega

end Around

section Dumps

variable {strict : Prop} {heap : Heap}

theorem gives_dumpField {dump : Value → Except Fault String} {field : Matter}
    (each : ∀ g, field.guard = some g → Gives strict (dump g) fun _ => True) :
    Gives strict (dumpField dump field) fun _ => True := by
  unfold dumpField
  split
  · exact .ok trivial
  · rename_i guard same
    exact (each guard same).bind fun _ _ => .ok trivial

theorem gives_dumpMatter {dump : Value → Except Fault String} {values : Array Value}
    (each : ∀ i, Gives strict (dump (values.getD i .ni)) fun _ => True) (i : Nat)
    (fields : List Matter) : Gives strict (dumpMatter dump values i fields) fun _ => True := by
  induction fields generalizing i with
  | nil => exact .ok trivial
  | cons field rest ih =>
    exact (each i).bind fun _ _ => (ih (i + 1)).bind fun _ _ => .ok trivial

theorem refers_getD {values : Array Value} (refer : ∀ v ∈ values.toList, heap.Refers v) (i : Nat) :
    heap.Refers (values.getD i .ni) := by
  by_cases inside : i < values.size
  · rw [Array.getD_eq_getD_getElem?, Array.getElem?_eq_getElem inside]
    exact refer _ (by simp)
  · rw [Array.getD_eq_getD_getElem?, Array.getElem?_eq_none (Nat.le_of_not_lt inside)]
    exact refers_ni

theorem Holds.lt_capacity {genus : Genus} {h : Handle} (holds : heap.Holds genus h) :
    h.slot < heap.capacity := by
  obtain ⟨o, used, _⟩ := holds
  exact Heap.lt_capacity used

/-- Shows what each object of a closed heap holds, as deep as there are slots. -/
theorem gives_dumpWithin (closed : heap.Closed) (room : Nat) {path : List Handle} {v : Value}
    (around : Around heap.capacity room path) (refers : heap.Refers v) :
    Gives True (heap.dumpWithin room path v) fun _ => True := by
  induction room using Nat.strong_induction_on generalizing path v with
  | _ room ih =>
    have inside : ∀ h, v.handle? = some h → h.slot < heap.capacity :=
      fun h found => (refers h found).lt_capacity
    -- An object that is not on the path leaves room for what it holds.
    have deeper : ∀ {left h w}, room = left + 1 → h ∉ path → v.handle? = some h → heap.Refers w →
        Gives True (heap.dumpWithin left (h :: path) w) fun _ => True := by
      rintro left h w rfl fresh found refer
      exact ih left (Nat.lt_succ_self left) (around.cons fresh (inside h found)) refer
    have never : ∀ {h}, room = 0 → h ∉ path → v.handle? = some h → False := by
      rintro h rfl fresh found
      exact around.room_left fresh (inside h found)
    unfold dumpWithin
    cases v with
    | ni | veracity | numeral => exact .ok trivial
    | text h =>
      dsimp only
      split
      · exact .ok trivial
      · exact (gives_text fun _ => (refers_text).mp refers).bind fun _ _ => .ok trivial
    | journey h =>
      dsimp only
      split
      · exact .ok trivial
      · exact (gives_journey fun _ => (refers_journey).mp refers).bind fun _ _ => .ok trivial
    | other h =>
      dsimp only
      split
      · exact .ok trivial
      · refine (gives_other fun _ => (refers_other).mp refers).bind fun o _ => ?_
        cases o <;> exact .ok trivial
    | form h =>
      dsimp only
      split
      · exact .ok trivial
      · rename_i fresh
        cases room with
        | zero => exact (never rfl fresh rfl).elim
        | succ room =>
          refine (gives_form fun _ => (refers_form).mp refers).bind fun f used => ?_
          refine Gives.bind (.mapM fun field member => ?_) fun _ _ => .ok trivial
          refine gives_dumpField fun g same => deeper rfl fresh rfl (closed h _ used g ?_)
          simp only [Object.links, Form.links, List.mem_append, List.mem_flatMap,
            Option.mem_toList]
          exact .inl (.inl (.inl (.inl (.inr ⟨field, member, same⟩))))
    | imitation h =>
      dsimp only
      split
      · exact .ok trivial
      · rename_i fresh
        cases room with
        | zero => exact (never rfl fresh rfl).elim
        | succ room =>
          refine (gives_imitation fun _ => (refers_imitation).mp refers).bind fun i used => ?_
          refine (gives_form fun _ => closed.own used).bind fun f _ => ?_
          refine (gives_dumpMatter (fun n => deeper rfl fresh rfl ?_) 0 f.matter).bind
            fun _ _ => .ok trivial
          exact refers_getD (fun w member => closed.matter used member) n
    | book h =>
      dsimp only
      split
      · exact .ok trivial
      · rename_i fresh
        cases room with
        | zero => exact (never rfl fresh rfl).elim
        | succ room =>
          refine (gives_book fun _ => (refers_book).mp refers).bind fun pages used => ?_
          refine Gives.bind (.mapM fun page member => ?_) fun _ _ => .ok trivial
          exact deeper rfl fresh rfl (closed h _ used page member)
    | codex h =>
      dsimp only
      split
      · exact .ok trivial
      · rename_i fresh
        cases room with
        | zero => exact (never rfl fresh rfl).elim
        | succ room =>
          refine (gives_codex fun _ => (refers_codex).mp refers).bind fun entries used => ?_
          refine Gives.bind (.mapM fun entry member => ?_) fun _ _ => .ok trivial
          have both : ∀ w ∈ [entry.1, entry.2], heap.Refers w := fun w of =>
            closed h _ used w (Object.links_entry member of)
          refine (deeper rfl fresh rfl (both entry.1 (by simp))).bind fun _ _ => ?_
          exact (deeper rfl fresh rfl (both entry.2 (by simp))).bind fun _ _ => .ok trivial

theorem gives_dump (closed : heap.Closed) {v : Value} (refers : strict → heap.Refers v) :
    Gives strict (heap.dump v) fun _ => True :=
  ⟨fun _ _ => trivial, fun assumed =>
    (gives_dumpWithin closed heap.capacity (around_nil _) (refers assumed)).2 trivial⟩

end Dumps

end JourneyMachine.Heap

namespace JourneyMachine.Run

theorem Meets.looks {strict : Prop} {R : Region strict} {env : Env} {m : Machine} {α : Type}
    {f : Heap → Except Fault α} {Q : α → Prop}
    (gives : R.holds m → Heap.Gives strict (f m.heap) Q) :
    Meets R env (Run.onHeap f) m fun a m' => m' = m ∧ Q a :=
  .intro fun holds => .onHeap (gives holds).2 fun a same _ => ⟨rfl, (gives holds).1 a same⟩

end JourneyMachine.Run
