import JourneyMachine.Proofs.Attributes.Fields
import JourneyMachine.Proofs.Attributes.Silence
import JourneyMachine.Proofs.Closure.Attributes
import JourneyMachine.Proofs.Containers.Pages
import JourneyMachine.Proofs.Dispatch.Guards
import JourneyMachine.Proofs.Matching.Meaning

namespace JourneyMachine

/-- An object and what it is with another value in one field. Matter that is missing before that field
is filled up with ni. -/
inductive Object.Sets (i : Nat) (new : Value) : Object → Object → Prop
  | essence {f : Form} {e : Essence} : f.essences[i]? = some e →
      Sets i new (.form f) (.form { f with essences := f.essences.set i { e with value := new } })
  | matter {im : Imitation} {matter : Array Value} : matter.size = max im.matter.size (i + 1) →
      matter[i]? = some new → (∀ j, j ≠ i → matter.getD j .ni = im.matter.getD j .ni) →
      Sets i new (.imitation im) (.imitation { im with matter })

namespace Run

open Machine (silent calling answersTrue answersTrue_iff)
open Host (OpenFile)

variable {env : Env} {m m' : Machine} {v new : Value} {guard : Option Value} {name : String}
  {depth i : Nat} {h : Handle} {o o' : Object}

/-- Whether a field with that guard, if it has one, takes a value. -/
def test (guard : Option Value) (new : Value) : Run Bool :=
  match guard with
  | none => return true
  | some guard => withPinned [new] (fits guard new)

def Finishes (env : Env) (c : Run Bool) (m : Machine) : Prop :=
  (∃ b m', c env m = .ok b m') ∨ ∃ m', c env m = .error .thrown m'

/-- A computation ends before any code of a journey runs and before a journey of the host is called. -/
def Unheard (depth : Nat) (c : Run Bool) (m : Machine) : Prop :=
  c (silent depth) m = c (calling depth) m

/-- The machine holds both values, itself or in a frame. -/
structure Owns (m : Machine) (v new : Value) : Prop where
  closed : m.Closed
  receiver : v ∈ m.held
  assigned : new ∈ m.held

/-- What an assignment finds after the guard has been asked: a closed heap that has the receiver and
the value, in which no form declares anything else than before. -/
structure Resumes (m : Machine) (v new : Value) (m' : Machine) : Prop where
  tidy : m'.heap.Tidy
  closed : m'.heap.Closed
  receiver : m'.heap.Refers v
  assigned : m'.heap.Refers new
  evolves : Heap.Evolves False [v] m.heap m'.heap

section Checking

theorem checkGuard_eq (owner field : String) : checkGuard guard new owner field = (do
    if ← test guard new then return ()
    else complain (.fieldGenus (← typeName new) field owner)) := by
  cases guard <;> rfl

theorem Unheard.ends {c : Run Bool} (unheard : Unheard depth c m) (tacit : Tacit (silent depth) c)
    (tidy : m.heap.Tidy) : Landed (· = m) (Unharmed m) (c (calling depth) m) := by
  have landed := tacit m tidy
  rwa [unheard] at landed

theorem tacit_test (guard : Option Value) (new : Value) : Tacit (silent depth) (test guard new) := by
  cases guard with
  | none => exact .pure
  | some guard => exact (tacit_fits (fun _ _ _ tidy => silent_call tidy ..) guard new).withPinned

theorem Owns.resumes {b : Bool} (owns : Owns m v new)
    (done : test guard new (calling depth) m = .ok b m') : Resumes m v new m' := by
  have calls : (calling depth).Calls False := Machine.callAt_calls False depth depth
  have meets : Meets (.within False m) (calling depth) (test guard new) m fun _ _ => True := by
    cases guard with
    | none => exact .pure fun _ => trivial
    | some guard =>
      have refer : ∀ w ∈ [new], m.heap.Refers w :=
        List.forall_mem_singleton.mpr (owns.closed.held owns.assigned)
      have body : Meets (.within False (m.pin [new])) (calling depth) (fits guard new) (m.pin [new])
          fun _ _ => True := meets_fits calls False.elim (Machine.held_pin owns.assigned)
      exact (Meets.withPinned (Q := fun _ _ => True) (fun _ => refer) body).weaken fun _ _ _ _ => trivial
  have outcome := meets (.refl owns.closed) False.elim
  rw [done] at outcome
  obtain ⟨within, _⟩ := outcome
  exact {
    tidy := within.closed.tidy
    closed := within.closed.heap
    receiver := within.refers owns.receiver
    assigned := within.refers owns.assigned
    evolves := within.evolves.mono (List.forall_mem_singleton.mpr owns.receiver) }

theorem resumes_test {b : Bool} (start : Resumes m v new m)
    (kept : Unheard depth (test guard new) m ∨ Owns m v new)
    (done : test guard new (calling depth) m = .ok b m') :
    Resumes m v new m' ∧ (Unheard depth (test guard new) m → m' = m) := by
  have same : Unheard depth (test guard new) m → m' = m := by
    intro unheard
    have landed := unheard.ends (tacit_test guard new) start.tidy
    rw [done] at landed
    exact landed
  refine ⟨?_, same⟩
  rcases kept with unheard | owns
  · rw [same unheard]
    exact start
  · exact owns.resumes done

/-- A guard lets a value through, or an assignment throws there. -/
theorem checkGuard_cases (start : Resumes m v new m)
    (ends : Finishes (calling depth) (test guard new) m)
    (kept : Unheard depth (test guard new) m ∨ Owns m v new) (owner field : String) :
    (∃ m', test guard new (calling depth) m = .ok true m' ∧ Resumes m v new m' ∧
      (Unheard depth (test guard new) m → m' = m) ∧
      checkGuard guard new owner field (calling depth) m = .ok () m') ∨
    ((∀ m', test guard new (calling depth) m ≠ .ok true m') ∧
      ∃ m', checkGuard guard new owner field (calling depth) m = .error .thrown m' ∧
        (Unheard depth (test guard new) m → Unharmed m m')) := by
  rw [checkGuard_eq]
  rcases ends with ⟨b, m₁, done⟩ | ⟨m₁, thrown⟩
  · obtain ⟨resumes, same⟩ := resumes_test start kept done
    rw [bind_ok done]
    cases b with
    | true => exact .inl ⟨m₁, done, resumes, same, rfl⟩
    | false =>
      right
      constructor
      · intro m' other
        cases done.symm.trans other
      · obtain ⟨type, named⟩ := Heap.typeName_ok resumes.closed resumes.assigned
        obtain ⟨m', thrown, threw⟩ := complain_threw resumes.tidy (.fieldGenus type field owner)
        refine ⟨m', (bind_ok ((onHeap_eq_ok).mpr ⟨named, rfl⟩)).trans thrown, fun unheard => ?_⟩
        rw [← same unheard]
        exact threw.retains
  · right
    constructor
    · intro m' other
      cases thrown.symm.trans other
    · refine ⟨m₁, bind_error thrown, fun unheard => ?_⟩
      have landed := unheard.ends (tacit_test guard new) start.tidy
      rw [thrown] at landed
      exact landed

end Checking

section Storing

theorem getElem?_set_of_modify {α : Type} {l : List α} {g : α → α} {e : α} (found : l[i]? = some e) :
    l.modify i g = l.set i (g e) := by
  rw [List.modify_eq_set_getElem?, found]
  rfl

theorem setPadded_sets (im : Imitation) :
    Object.Sets i new (.imitation im) (.imitation { im with matter := setPadded im.matter i new }) := by
  have size : (setPadded im.matter i new).size = max im.matter.size (i + 1) := size_setPadded i new
  have inside : i < (setPadded im.matter i new).size := by omega
  refine .matter size (by rw [getElem?_setPadded new inside, if_pos rfl]) fun j other => ?_
  rw [Array.getD_eq_getD_getElem?]
  by_cases within : j < (setPadded im.matter i new).size
  · rw [getElem?_setPadded new within, if_neg other, Option.getD_some]
  · rw [Array.getElem?_eq_none (by omega), Array.getD_eq_getD_getElem?,
      Array.getElem?_eq_none (by omega)]

def put (m : Machine) (h : Handle) (o : Object) : Machine :=
  { m with heap := m.heap.modify h fun _ => o }

theorem put_get (used : m.heap.get? h = some o) : (put m h o').heap.get? h = some o' := by
  simp only [put, Heap.get?_modify, if_pos, used, Option.map_some]

theorem put_others {k : Handle} (other : k ≠ h) : (put m h o).heap.get? k = m.heap.get? k := by
  simp only [put, Heap.get?_modify, if_neg other]

theorem update_put {g : Object → Object} (used : m.heap.get? h = some o) :
    update h g env m = .ok () (put m h (g o)) := by
  have same : m.heap.modify h g = m.heap.modify h fun _ => g o := by
    apply Heap.modify_congr
    intro o' there
    cases used.symm.trans there
    rfl
  rw [put, ← same]
  rfl

theorem editForm_ok {f : Form} (used : m.heap.get? h = some (.form f)) (g : Form → Form) :
    editForm h g env m = .ok () (put m h (.form (g f))) := by
  have read : discard (form h) env m = .ok () m := bind_ok (k := fun _ => pure ()) (read_form used)
  exact (bind_ok read).trans (update_put used)

theorem editImitation_ok {im : Imitation} (used : m.heap.get? h = some (.imitation im))
    (g : Imitation → Imitation) : editImitation h g env m = .ok () (put m h (.imitation (g im))) := by
  have read : discard (imitation h) env m = .ok () m :=
    bind_ok (k := fun _ => pure ()) (read_imitation used)
  exact (bind_ok read).trans (update_put used)

/-- How an assignment ends, by the field that it finds and what the guard of the field says. -/
inductive Assigns (depth : Nat) (m : Machine) (v new : Value) (name : String) :
    EStateM.Result Unwind Machine Bool → Prop
  | undeclared : m.heap.field? v name = none → Assigns depth m v new name (.ok false m)
  | refused {i : Nat} {guard : Option Value} {m' : Machine} :
      m.heap.field? v name = some (i, guard) →
      (∀ m', test guard new (calling depth) m ≠ .ok true m') →
      (Unheard depth (test guard new) m → Unharmed m m') →
      Assigns depth m v new name (.error .thrown m')
  | stored {i : Nat} {guard : Option Value} {m' : Machine} {h : Handle} {o o' : Object} :
      m.heap.field? v name = some (i, guard) → test guard new (calling depth) m = .ok true m' →
      Resumes m v new m' → (Unheard depth (test guard new) m → m' = m) → v.handle? = some h →
      m'.heap.get? h = some o → Object.Sets i new o o' →
      Assigns depth m v new name (.ok true (put m' h o'))

theorem assigns_form (start : Resumes m (.form h) new m) {f : Form}
    (used : m.heap.get? h = some (.form f))
    (ends : ∀ i guard, m.heap.field? (.form h) name = some (i, guard) →
      Finishes (calling depth) (test guard new) m)
    (kept : ∀ i guard, m.heap.field? (.form h) name = some (i, guard) →
      Unheard depth (test guard new) m ∨ Owns m (.form h) new) :
    Assigns depth m (.form h) new name (setAttribute (.form h) name new (calling depth) m) := by
  rw [setAttribute, bind_ok (read_form used)]
  cases index : f.essenceIndex? name with
  | none => exact .undeclared (by rw [Heap.field?_form used, index, Option.map_none])
  | some i =>
    have field : m.heap.field? (.form h) name = some (i, f.essences[i]?.bind (·.guard)) := by
      rw [Heap.field?_form used, index, Option.map_some]
    rcases checkGuard_cases start (ends _ _ field) (kept _ _ field) f.name name with
      ⟨m', passed, resumes, same, checked⟩ | ⟨missed, m', thrown, unharmed⟩
    · -- Code of the guard may have changed the form, but what it declares is where it was.
      obtain ⟨f', there, alike⟩ := resumes.evolves.form used resumes.receiver
      rw [← Heap.essenceIndex?_alike alike] at index
      obtain ⟨inside, _⟩ := List.findIdx?_eq_some_iff_getElem.mp index
      have essence : f'.essences[i]? = some f'.essences[i] := List.getElem?_eq_getElem inside
      have sets : Object.Sets i new (.form f') (.form (f'.setEssence i new)) := by
        rw [Form.setEssence, getElem?_set_of_modify essence]
        exact .essence essence
      dsimp only
      rw [bind_ok checked, bind_ok (editForm_ok there _)]
      exact .stored field passed resumes same rfl there sets
    · dsimp only
      rw [bind_error thrown]
      exact .refused field missed unharmed

theorem assigns_imitation (start : Resumes m (.imitation h) new m) {im : Imitation}
    (used : m.heap.get? h = some (.imitation im))
    (ends : ∀ i guard, m.heap.field? (.imitation h) name = some (i, guard) →
      Finishes (calling depth) (test guard new) m)
    (kept : ∀ i guard, m.heap.field? (.imitation h) name = some (i, guard) →
      Unheard depth (test guard new) m ∨ Owns m (.imitation h) new) :
    Assigns depth m (.imitation h) new name
      (setAttribute (.imitation h) name new (calling depth) m) := by
  obtain ⟨o, own, genus⟩ := start.closed.own used
  cases o <;> try contradiction
  rename_i f
  rw [setAttribute, bind_ok (read_imitation used), bind_ok (read_form own)]
  cases index : f.matterIndex? name with
  | none => exact .undeclared (by rw [Heap.field?_imitation used own, index, Option.map_none])
  | some i =>
    have field : m.heap.field? (.imitation h) name = some (i, f.matter[i]?.bind (·.guard)) := by
      rw [Heap.field?_imitation used own, index, Option.map_some]
    rcases checkGuard_cases start (ends _ _ field) (kept _ _ field) f.name name with
      ⟨m', passed, resumes, same, checked⟩ | ⟨missed, m', thrown, unharmed⟩
    · obtain ⟨im', there, _⟩ := resumes.evolves.imitation used
      dsimp only
      rw [bind_ok checked, bind_ok (editImitation_ok there _)]
      exact .stored field passed resumes same rfl there (setPadded_sets im')
    · dsimp only
      rw [bind_error thrown]
      exact .refused field missed unharmed

/-- The guard may be asked by code that gives the field another guard, but the field stays where it
is. -/
theorem Resumes.field? (resumes : Resumes m v new m') (start : Resumes m v new m)
    (field : m.heap.field? v name = some (i, guard)) :
    ∃ guard', m'.heap.field? v name = some (i, guard') := by
  cases v with
  | form h =>
    obtain ⟨o, used, genus⟩ := (Heap.refers_form).mp start.receiver
    cases o <;> try contradiction
    obtain ⟨f', there, alike⟩ := resumes.evolves.form used resumes.receiver
    rw [Heap.field?_form used, ← Heap.essenceIndex?_alike alike] at field
    obtain ⟨_, index, same⟩ := Option.map_eq_some_iff.mp field
    cases same
    exact ⟨_, by rw [Heap.field?_form there, index, Option.map_some]⟩
  | imitation h =>
    obtain ⟨o, used, genus⟩ := (Heap.refers_imitation).mp start.receiver
    cases o <;> try contradiction
    obtain ⟨o, own, genus⟩ := start.closed.own used
    cases o <;> try contradiction
    obtain ⟨im', there, form⟩ := resumes.evolves.imitation used
    have still : m'.heap.Refers (.form im'.form) := (Heap.refers_form).mpr (resumes.closed.own there)
    obtain ⟨f', shape, alike⟩ := resumes.evolves.form own (form ▸ still)
    rw [Heap.field?_imitation used own, ← Heap.matterIndex?_alike alike] at field
    obtain ⟨_, index, same⟩ := Option.map_eq_some_iff.mp field
    cases same
    rw [← form] at shape
    exact ⟨_, by rw [Heap.field?_imitation there shape, index, Option.map_some]⟩
  | ni | veracity | numeral | text | journey | book | codex | other => cases field

end Storing

section Reading

theorem find?_set {α : Type} {p : α → Bool} {l : List α} {e : α} (first : l.findIdx? p = some i)
    (passes : p e = true) : (l.set i e).find? p = some e := by
  induction l generalizing i with
  | nil => cases first
  | cons a rest ih =>
    rw [List.findIdx?_cons] at first
    split at first
    · cases first
      simp [passes]
    · rename_i fails
      obtain ⟨j, found, rfl⟩ := Option.map_eq_some_iff.mp first
      simpa [fails] using ih found

/-- The first essence of a name is read where no recollection shadows it. -/
theorem put_attribute {f f' : Form} {e : Essence} (closed : m.heap.Closed)
    (used : m.heap.get? h = some (.form f)) (same : f'.recollections = f.recollections)
    (found : f'.essences.find? (·.name == name) = some e) (seen : ¬ m.heap.Shadowed name (.form h))
    (genus : name ≠ "genus") (length : name ≠ "length") :
    attribute? (.form h) name env (put m h (.form f')) =
      .ok (some e.value) (put m h (.form f')) := by
  have journeys : ∀ k ∈ f'.recollections, ∃ j,
      (put m h (.form f')).heap.get? k = some (.journey j) ∧ j.name ≠ name := by
    intro k member
    rw [same] at member
    obtain ⟨o, there, kind⟩ := closed.recollection used member
    cases o <;> try contradiction
    have apart : k ≠ h := by
      rintro rfl
      cases used.symm.trans there
    exact ⟨_, (put_others apart).trans there, fun same => seen (.recollection used member there same)⟩
  have own := Heap.ownAttribute?_essence (put_get used) journeys found
  rw [attribute?, if_neg genus, if_neg length]
  refine (onHeap_eq_ok).mpr ⟨?_, rfl⟩
  rw [Heap.attribute?, Heap.chainRoom, Heap.climbs_attribute, own]
  rfl

theorem attribute_form (closed : m.heap.Closed) {f : Form} (used : m.heap.get? h = some (.form f))
    (field : m.heap.field? (.form h) name = some (i, guard)) (sets : Object.Sets i new (.form f) o')
    (seen : ¬ m.heap.Shadowed name (.form h)) (genus : name ≠ "genus") (length : name ≠ "length") :
    attribute? (.form h) name env (put m h o') = .ok (some new) (put m h o') := by
  rw [Heap.field?_form used] at field
  obtain ⟨_, index, same⟩ := Option.map_eq_some_iff.mp field
  cases same
  obtain ⟨inside, named, _⟩ := List.findIdx?_eq_some_iff_getElem.mp index
  cases sets with
  | @essence _ e there =>
    cases (List.getElem?_eq_getElem inside).symm.trans there
    have found := find?_set (e := { f.essences[i] with value := new }) index named
    exact put_attribute (e := { f.essences[i] with value := new }) closed used rfl found seen genus length

/-- What an imitation has does not matter to where changes are looked up. -/
theorem put_change? {im im' : Imitation} (used : m.heap.get? h = some (.imitation im)) (own : Handle)
    (name : String) : (put m h (.imitation im')).heap.change? own name = m.heap.change? own name := by
  apply Heap.change?_congr
  · intro k
    by_cases same : k = h
    · rw [same, Heap.form, Heap.form, Heap.read, Heap.read, put_get used, used]
      rfl
    · rw [Heap.form, Heap.form, Heap.read, Heap.read, put_others same]
  · intro k
    by_cases same : k = h
    · rw [same, Heap.journey, Heap.journey, Heap.read, Heap.read, put_get used, used]
      rfl
    · rw [Heap.journey, Heap.journey, Heap.read, Heap.read, put_others same]
  · exact Heap.capacity_modify ..

theorem put_matter {im im' : Imitation} {f : Form} (closed : m.heap.Closed)
    (used : m.heap.get? h = some (.imitation im)) (own : m.heap.get? im.form = some (.form f))
    (acyclic : Heap.Acyclic m.heap.Parent (.form im.form)) (same : im'.form = im.form)
    (index : f.matterIndex? name = some i) (seen : ¬ m.heap.Shadowed name (.imitation h))
    (genus : name ≠ "genus") (length : name ≠ "length") :
    attribute? (.imitation h) name env (put m h (.imitation im')) =
      .ok im'.matter[i]? (put m h (.imitation im')) := by
  -- The slot that was written is not that of the form, so the same field is looked up there.
  have apart : im.form ≠ h := by
    intro same
    rw [same, used] at own
    cases own
  have change : onHeap (·.change? im'.form name) env (put m h (.imitation im')) =
      .ok none (put m h (.imitation im')) := by
    refine (onHeap_eq_ok).mpr ⟨?_, rfl⟩
    rw [same]
    exact (put_change? used _ _).trans (Heap.change?_unshadowed closed used acyclic seen)
  have shape : (put m h (.imitation im')).heap.get? im'.form = some (.form f) := by
    rw [same]
    exact (put_others apart).trans own
  have read : imitation h env (put m h (.imitation im')) = .ok im' (put m h (.imitation im')) :=
    read_imitation (put_get used)
  rw [attribute?, if_neg genus, if_neg length]
  refine (bind_ok read).trans ((bind_ok change).trans ((bind_ok (read_form shape)).trans ?_))
  simp only [index]
  exact bind_ok read

theorem attribute_imitation (closed : m.heap.Closed) {im : Imitation}
    (used : m.heap.get? h = some (.imitation im)) (acyclic : Heap.Acyclic m.heap.Parent (.form im.form))
    (field : m.heap.field? (.imitation h) name = some (i, guard))
    (sets : Object.Sets i new (.imitation im) o') (seen : ¬ m.heap.Shadowed name (.imitation h))
    (genus : name ≠ "genus") (length : name ≠ "length") :
    attribute? (.imitation h) name env (put m h o') = .ok (some new) (put m h o') := by
  obtain ⟨o, own, kind⟩ := closed.own used
  cases o <;> try contradiction
  rw [Heap.field?_imitation used own] at field
  obtain ⟨_, index, same⟩ := Option.map_eq_some_iff.mp field
  cases same
  cases sets with
  | @matter _ matter size stored others =>
    rw [← stored]
    exact put_matter closed used own acyclic rfl index seen genus length

/-- What was assigned is read where nothing shadows it. -/
theorem attribute_assigned (closed : m.heap.Closed)
    (acyclic : ∀ k, Heap.Acyclic m.heap.Parent (.form k))
    (kind : v.genus = .form ∨ v.genus = .imitation) (receiver : m.heap.Refers v)
    (field : m.heap.field? v name = some (i, guard)) (handle : v.handle? = some h)
    (used : m.heap.get? h = some o) (sets : Object.Sets i new o o') (seen : ¬ m.heap.Shadowed name v)
    (genus : name ≠ "genus") (length : name ≠ "length") :
    attribute? v name env (put m h o') = .ok (some new) (put m h o') := by
  cases v with
  | form k =>
    cases handle
    obtain ⟨_, there, same⟩ := (Heap.refers_form).mp receiver
    cases used.symm.trans there
    cases o <;> try contradiction
    exact attribute_form closed used field sets seen genus length
  | imitation k =>
    cases handle
    obtain ⟨_, there, same⟩ := (Heap.refers_imitation).mp receiver
    cases used.symm.trans there
    cases o <;> try contradiction
    exact attribute_imitation closed used (acyclic _) field sets seen genus length
  | ni | veracity | numeral | text | journey | book | codex | other =>
    rcases kind with same | same <;> cases same

end Reading

theorem assigns (kind : v.genus = .form ∨ v.genus = .imitation) (start : Resumes m v new m)
    (ends : ∀ i guard, m.heap.field? v name = some (i, guard) →
      Finishes (calling depth) (test guard new) m)
    (kept : ∀ i guard, m.heap.field? v name = some (i, guard) →
      Unheard depth (test guard new) m ∨ Owns m v new) :
    Assigns depth m v new name (setAttribute v name new (calling depth) m) := by
  cases v with
  | form h =>
    obtain ⟨o, used, same⟩ := (Heap.refers_form).mp start.receiver
    cases o <;> try contradiction
    exact assigns_form start used ends kept
  | imitation h =>
    obtain ⟨o, used, same⟩ := (Heap.refers_imitation).mp start.receiver
    cases o <;> try contradiction
    exact assigns_imitation start used ends kept
  | ni | veracity | numeral | text | journey | book | codex | other =>
    rcases kind with same | same <;> cases same

/-- Assigning an attribute of a form or an imitation in a closed heap without circles of ancestors,
where the guard of the field comes to an answer or a throw. If a journey is called to ask it, the
machine holds the receiver and the value. The assignment is refused exactly if the form of the
receiver declares no such field, and throws exactly if it declares one whose guard does not let the
value through. Otherwise it sets the first such field, and nothing else is changed of what asking the
guard has left. Where it is refused nothing has changed. If no journey is called to ask the guard,
nothing else in the machine has changed where the field is set, and nothing that the roots lead to where
it throws. After it the attribute reads as the value, unless its name is that of the genus or the
length or something shadows it. -/
theorem assignment_decided (tidy : m.heap.Tidy) (closed : m.heap.Closed)
    (acyclic : ∀ h, Heap.Acyclic m.heap.Parent (.form h))
    (kind : v.genus = .form ∨ v.genus = .imitation) (receiver : m.heap.Refers v)
    (refers : m.heap.Refers new)
    (ends : ∀ i guard, m.heap.field? v name = some (i, guard) →
      Finishes (calling depth) (test guard new) m)
    (kept : ∀ i guard, m.heap.field? v name = some (i, guard) →
      Unheard depth (test guard new) m ∨ Owns m v new) :
    let field := m.heap.field? v name
    let result := setAttribute v name new (calling depth) m
    let matched := ∃ i guard m', field = some (i, guard) ∧
      test guard new (calling depth) m = .ok true m'
    let unheard := ∀ i guard, field = some (i, guard) → Unheard depth (test guard new) m
    ((∃ m', result = .ok false m') ↔ field = none) ∧
    ((∃ m', result = .error .thrown m') ↔ field ≠ none ∧ ¬ matched) ∧
    ((∃ m', result = .ok true m') ↔ matched) ∧
    (∀ m', result = .ok false m' → m' = m) ∧
    (∀ m', result = .error .thrown m' → unheard → m.heap.Retains m.roots m'.heap) ∧
    ∀ m', result = .ok true m' → ∃ i guard m₁ h o o', field = some (i, guard) ∧
      test guard new (calling depth) m = .ok true m₁ ∧ v.handle? = some h ∧
      m₁.heap.get? h = some o ∧ Object.Sets i new o o' ∧ m' = put m₁ h o' ∧ (unheard → m₁ = m) ∧
      (name ≠ "genus" → name ≠ "length" → ¬ m.heap.Shadowed name v →
        ∀ env, attribute? v name env m' = .ok (some new) m') := by
  have start : Resumes m v new m := ⟨tidy, closed, receiver, refers, .refl⟩
  have assigned := assigns kind start ends kept
  intro field result matched unheard
  change Assigns depth m v new name result at assigned
  -- The three outcomes exclude one another, so each of the answers follows from its case.
  generalize result = ended at assigned
  cases assigned with
  | undeclared missing =>
    have unmatched : ¬ matched := by
      rintro ⟨i, guard, m', found, _⟩
      cases missing.symm.trans found
    have undeclared : field = none := missing
    simp [unmatched, undeclared]
  | refused found missed unharmed =>
    have unmatched : ¬ matched := by
      rintro ⟨i, guard, m', same, passed⟩
      cases found.symm.trans same
      exact missed m' passed
    have declared : field ≠ none := by
      intro missing
      cases missing.symm.trans found
    have throws : unheard → Unharmed m _ := fun unheard => unharmed (unheard _ _ found)
    simpa [unmatched, declared, Unharmed] using throws
  | stored found passed resumes same handle used sets =>
    have passes : matched := ⟨_, _, _, found, passed⟩
    have declared : field ≠ none := by
      intro missing
      cases missing.symm.trans found
    refine ⟨by simp [declared], by simp [passes], by simp [passes], by simp, by simp, ?_⟩
    rintro _ ⟨⟩
    refine ⟨_, _, _, _, _, _, found, passed, handle, used, sets, rfl,
      fun unheard => same (unheard _ _ found), fun genus length seen env => ?_⟩
    obtain ⟨_, field⟩ := resumes.field? start found
    exact attribute_assigned resumes.closed (fun k => resumes.evolves.acyclic (acyclic k)) kind
      resumes.receiver field handle used sets
      (fun shadowed => seen (resumes.evolves.shadowed receiver shadowed)) genus length

/-- A point whose coordinate takes numerals, of a form that inherits a change of another name. -/
def plottedObjects : List Object := [
  .form { name := "Base", changes := [⟨3⟩] },
  .form { name := "Point", matter := [{ name := "x", guard := some (.text ⟨4⟩) }], parents := [⟨0⟩] },
  .imitation { form := ⟨1⟩, matter := #[.numeral 1] },
  .journey { name := "norm" },
  .text "Numeral"]

def plotted : Machine := bare plottedObjects

theorem plotted_field :
    plotted.heap.field? (.imitation ⟨2⟩) "x" = some (0, some (.text ⟨4⟩)) := by decide

/-- Among values without objects the coordinate takes the numerals, and nothing is called to find out. -/
theorem plotted_test {new : Value} (scalar : new.handle? = none) (env : Env) :
    test (some (.text ⟨4⟩)) new env plotted = .ok (decide (new.genus = .numeral)) plotted := by
  have text : (plotted.pin [new]).heap.get? ⟨4⟩ = some (.text Genus.numeral.name) := rfl
  have fitted : fits (.text ⟨4⟩) new env (plotted.pin [new]) =
      .ok (decide (new.genus = .numeral)) (plotted.pin [new]) := by
    rw [fits_named (by decide) text]
    cases new <;> first | rfl | cases scalar
  have tested : test (some (.text ⟨4⟩)) new env plotted =
      release plotted.pinned.length (fits (.text ⟨4⟩) new env (plotted.pin [new])) := withPinned_eq ..
  rw [tested, fitted]
  rfl

theorem plotted_finishes {new : Value} (scalar : new.handle? = none) (i : Nat) (guard : Option Value)
    (found : plotted.heap.field? (.imitation ⟨2⟩) "x" = some (i, guard)) :
    Finishes (calling 9) (test guard new) plotted := by
  cases plotted_field.symm.trans found
  exact .inl ⟨_, _, plotted_test scalar _⟩

theorem plotted_unheard {new : Value} (scalar : new.handle? = none) (i : Nat) (guard : Option Value)
    (found : plotted.heap.field? (.imitation ⟨2⟩) "x" = some (i, guard)) :
    Unheard 9 (test guard new) plotted := by
  cases plotted_field.symm.trans found
  exact (plotted_test scalar _).trans (plotted_test scalar _).symm

theorem plotted_seen : ¬ plotted.heap.Shadowed "x" (.imitation ⟨2⟩) := by
  have named : ∀ k j, plotted.heap.get? k = some (.journey j) → j.name = "norm" := by
    intro k j used
    rw [plotted, bare_get] at used
    have member := List.mem_of_getElem? used
    simp only [plottedObjects, List.mem_cons, reduceCtorEq, List.not_mem_nil, false_or, or_false,
      Object.journey.injEq] at member
    rw [member]
  intro shadowed
  cases shadowed with
  | change _ _ _ _ journey same =>
    rw [named _ _ journey] at same
    contradiction

/-- A numeral is assigned and read, and a truth is not taken. -/
theorem plotted_assigned :
    (∃ m', setAttribute (.imitation ⟨2⟩) "x" (.numeral 5) (calling 9) plotted = .ok true m' ∧
      ∀ env, attribute? (.imitation ⟨2⟩) "x" env m' = .ok (some (.numeral 5)) m') ∧
    ∃ m', setAttribute (.imitation ⟨2⟩) "x" (.veracity true) (calling 9) plotted =
      .error .thrown m' := by
  have tidy : plotted.heap.Tidy := bare_tidy _
  have closed : plotted.heap.Closed := bare_heap_closed (by decide)
  have acyclic : ∀ h, Heap.Acyclic plotted.heap.Parent (.form h) := fun h =>
    bare_acyclic _ (by decide)
  have receiver : plotted.heap.Refers (.imitation ⟨2⟩) := bare_refers (by decide)
  have numeral := assignment_decided tidy closed acyclic (.inr rfl) receiver
    (Heap.refers_numeral 5) (plotted_finishes rfl) fun i guard found =>
      .inl (plotted_unheard rfl i guard found)
  have truth := assignment_decided tidy closed acyclic (.inr rfl) receiver
    (Heap.refers_veracity true) (plotted_finishes rfl) fun i guard found =>
      .inl (plotted_unheard rfl i guard found)
  obtain ⟨_, _, passes, _, _, stored⟩ := numeral
  obtain ⟨_, throws, _, _, _, _⟩ := truth
  constructor
  · obtain ⟨m', done⟩ := passes.mpr ⟨_, _, _, plotted_field, plotted_test rfl _⟩
    obtain ⟨_, _, _, _, _, _, _, _, _, _, _, _, _, reads⟩ := stored m' done
    exact ⟨m', done, reads (by decide) (by decide) plotted_seen⟩
  · apply throws.mpr
    constructor
    · rw [plotted_field]
      exact Option.some_ne_none _
    · rintro ⟨i, guard, m', found, passed⟩
      cases plotted_field.symm.trans found
      cases (plotted_test rfl _).symm.trans passed

/-- An essence that the journey guards that closes scrolls, and a scroll. -/
def sealedObjects (file : Option OpenFile) : List Object := [
  .form { name := "Box", essences := [{ name := "x", value := .ni, guard := some (.other ⟨1⟩) }] },
  .other (.host { name := "Scroll.close", arity := some 1, routine := .scroll .close }),
  .other (.scroll { filename := "f", mode := "r", file })]

def sealed : Machine :=
  { bare (sealedObjects (some { entry := .void, access := { readable := true } })) with
    pinned := [.other ⟨2⟩]
    budget := 0 }

def throws {α : Type} (c : Run α) (m : Machine) (left : Machine → Bool) : Bool :=
  match c (calling 9) m with
  | .error .thrown m' => left m'
  | _ => false

theorem throws_inv {α : Type} {c : Run α} {left : Machine → Bool} (throws : throws c m left = true) :
    ∃ m', c (calling 9) m = .error .thrown m' ∧ left m' = true := by
  unfold Run.throws at throws
  split at throws
  · exact ⟨_, ‹_›, throws⟩
  · cases throws

/-- Matching a journey of the host runs no code of the program, but it may change what is reachable:
the assignment throws, and the scroll is closed. -/
theorem sealed_closes : sealed.heap.Tidy ∧ sealed.heap.Closed ∧
    (∀ h, Heap.Acyclic sealed.heap.Parent (.form h)) ∧ sealed.heap.Refers (.form ⟨0⟩) ∧
    sealed.heap.Refers (.other ⟨2⟩) ∧ sealed.heap.Reachable sealed.roots ⟨2⟩ ∧
    (∃ m, test (some (.other ⟨1⟩)) (.other ⟨2⟩) (calling 9) sealed = .ok false m) ∧
    ∃ m, setAttribute (.form ⟨0⟩) "x" (.other ⟨2⟩) (calling 9) sealed = .error .thrown m ∧
      m.heap.get? ⟨2⟩ ≠ sealed.heap.get? ⟨2⟩ := by
  have tested : answersTrue (do return !(← test (some (.other ⟨1⟩)) (.other ⟨2⟩))) sealed = true := by
    decide +kernel
  have thrown : throws (setAttribute (.form ⟨0⟩) "x" (.other ⟨2⟩)) sealed
      (fun m => m.heap.get? ⟨2⟩ ≠ sealed.heap.get? ⟨2⟩) = true := by decide +kernel
  obtain ⟨m₁, answered⟩ := answersTrue_iff.mp tested
  obtain ⟨b, m₂, missed, same⟩ := (bind_eq_ok).mp answered
  have refused : b = false := by simpa using ((pure_eq_ok).mp same).1
  subst refused
  obtain ⟨m, ended, changed⟩ := throws_inv thrown
  exact ⟨bare_tidy _, bare_heap_closed (by decide), fun h => bare_acyclic _ (by decide),
    bare_refers (by decide), bare_refers (by decide), .root (by decide) rfl, ⟨m₂, missed⟩, m, ended,
    of_decide_eq_true changed⟩

end Run

end JourneyMachine
