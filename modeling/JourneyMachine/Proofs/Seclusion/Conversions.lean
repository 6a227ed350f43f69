import JourneyMachine.Proofs.Seclusion.Basic

namespace JourneyMachine

section Lookups

variable {s h : Handle} {heap : Heap} {f : Form}

theorem Object.Avoids.changes (avoids : (Object.form f).Avoids s) (member : h ∈ f.changes) :
    h ≠ s :=
  (Value.avoids_journey).mp (avoids _ (by simp [links, Form.links, member]))

theorem Object.Avoids.recollections (avoids : (Object.form f).Avoids s)
    (member : h ∈ f.recollections) : h ≠ s :=
  (Value.avoids_journey).mp (avoids _ (by simp [links, Form.links, member]))

theorem Object.Avoids.constructor (avoids : (Object.form f).Avoids s)
    (declared : f.imitate = some h) : h ≠ s :=
  (Value.avoids_journey).mp (avoids _ (by simp [links, Form.links, declared]))

theorem Object.Avoids.essence {e : Essence} (avoids : (Object.form f).Avoids s)
    (member : e ∈ f.essences) : e.value.Avoids s ∧ ∀ g, e.guard = some g → g.Avoids s := by
  constructor
  · apply avoids
    simp only [links, Form.links, List.mem_append, List.mem_flatMap]
    exact .inl (.inl (.inl (.inl (.inl ⟨e, member, List.mem_cons_self ..⟩))))
  · intro g guarded
    apply avoids
    simp only [links, Form.links, List.mem_append, List.mem_flatMap]
    exact .inl (.inl (.inl (.inl (.inl ⟨e, member, by simp [guarded]⟩))))

theorem Object.Avoids.matter {field : Matter} (avoids : (Object.form f).Avoids s)
    (member : field ∈ f.matter) : ∀ g, field.guard = some g → g.Avoids s := by
  intro g guarded
  apply avoids
  simp only [links, Form.links, List.mem_append, List.mem_flatMap]
  exact .inl (.inl (.inl (.inl (.inr ⟨field, member, by simp [guarded]⟩))))

namespace Heap

theorem other_journeyNamed? (name : String) {journeys : List Handle}
    (others : ∀ h ∈ journeys, h ≠ s) :
    Gives False (heap.journeyNamed? name journeys) fun found => ∀ c, found = some c → c ≠ s := by
  unfold journeyNamed?
  induction journeys with
  | nil => exact .ok fun _ same => by cases same
  | cons h rest ih =>
    have named : Gives False (do return (← heap.journey h).name == name) fun _ => h ≠ s :=
      (gives_journey False.elim).bind fun _ _ => .ok (others h (List.mem_cons_self ..))
    refine named.bind fun same own => ?_
    cases same with
    | true => exact .ok fun c equal => by cases equal; exact own
    | false => exact ih fun k member => others k (List.mem_cons_of_mem _ member)

variable (objects : ∀ h p, heap.get? h = some p → p.Avoids s)
include objects

theorem other_changeWithin (name : String) (room : Nat) (form : Handle) :
    Gives False (heap.changeWithin name room form)
      fun found => ∀ c, found = some c → c ≠ s := by
  induction room generalizing form with
  | zero => exact .error fun _ _ => by simp
  | succ room ih =>
    refine (gives_form False.elim).bind fun f used => ?_
    have avoids := objects form _ used
    refine (other_journeyNamed? name fun h member => avoids.changes member).bind fun found own => ?_
    cases found with
    | some change => exact .ok own
    | none => exact .findSomeM? fun parent _ => ih parent

theorem other_changeOf? (name : String) (v : Value) :
    Gives False (heap.changeOf? v name) fun found => ∀ c, found = some c → c ≠ s := by
  cases v with
  | imitation h =>
    exact (gives_imitation False.elim).bind fun i _ => other_changeWithin objects name _ i.form
  | _ => exact .ok fun _ same => by cases same

theorem avoids_attributeWithin (name : String) (room : Nat) (form : Handle) :
    Gives False (heap.attributeWithin name room form)
      fun found => ∀ v, found = some v → v.Avoids s := by
  induction room generalizing form with
  | zero => exact .error fun _ _ => by simp
  | succ room ih =>
    refine (gives_form False.elim).bind fun f used => ?_
    have avoids := objects form _ used
    refine (other_journeyNamed? name fun h member => avoids.recollections member).bind
      fun found own => ?_
    cases found with
    | some recollection =>
      refine .ok fun v same => ?_
      cases same
      exact (Value.avoids_journey).mpr (own recollection rfl)
    | none =>
      dsimp only
      split
      · rename_i essence there
        refine .ok fun v same => ?_
        cases same
        exact (avoids.essence (List.mem_of_find?_eq_some there)).1
      · exact .findSomeM? fun parent _ => ih parent

end Heap

end Lookups

namespace Run

variable {α : Type} {s h : Handle} {env : Env} {P : α → Prop}

section Objects

theorem spares_read {f : Heap → Except Fault α} {object : α → Object}
    (there : ∀ heap a, f heap = .ok a → heap.get? h = some (object a)) :
    Spares s env (onHeap f) fun a => (object a).Avoids s :=
  .onHeap fun heap objects a looked => objects h (object a) (there heap a looked)

theorem spares_book (h : Handle) :
    Spares s env (book h) fun pages => (Object.book pages).Avoids s :=
  spares_read fun _ _ => Heap.book_ok

theorem spares_codex (h : Handle) :
    Spares s env (codex h) fun entries => (Object.codex entries).Avoids s :=
  spares_read fun _ _ => Heap.codex_ok

theorem spares_form (h : Handle) : Spares s env (form h) fun f => (Object.form f).Avoids s :=
  spares_read fun _ _ => Heap.form_ok

theorem spares_imitation (h : Handle) :
    Spares s env (imitation h) fun i => (Object.imitation i).Avoids s :=
  spares_read fun _ _ => Heap.imitation_ok

theorem spares_journey (h : Handle) :
    Spares s env (journey h) fun j => (Object.journey j).Avoids s :=
  spares_read fun _ _ => Heap.journey_ok

theorem spares_other (h : Handle) : Spares s env (other h) fun o => (Object.other o).Avoids s :=
  spares_read fun _ _ => Heap.other_ok

theorem spares_text (h : Handle) : Spares s env (text h) := .onHeap fun _ _ _ _ => trivial

theorem spares_typeName (v : Value) : Spares s env (typeName v) := .onHeap fun _ _ _ _ => trivial

theorem spares_expected {v : Value} (avoids : v.Avoids s) (genus : Genus) :
    Spares s env (ofExcept (v.expectHandle genus)) (· ≠ s) :=
  .ofExcept fun _ => avoids.expected

theorem spares_update (other : h ≠ s) {f : Object → Object}
    (keeps : ∀ p, p.Avoids s → (f p).Avoids s) : Spares s env (update h f) :=
  .modify fun _ _ secluded => ⟨secluded.modify other keeps, rfl⟩

theorem spares_editBook (other : h ≠ s) {f : Array Value → Array Value}
    (keeps : ∀ pages, (Object.book pages).Avoids s → (Object.book (f pages)).Avoids s) :
    Spares s env (editBook h f) := by
  refine (spares_book h).discard.bind fun _ _ => spares_update other fun p avoids => ?_
  cases p with
  | book pages => exact keeps pages avoids
  | _ => exact avoids

theorem spares_editCodex (other : h ≠ s) {f : List (Value × Value) → List (Value × Value)}
    (keeps : ∀ entries, (Object.codex entries).Avoids s → (Object.codex (f entries)).Avoids s) :
    Spares s env (editCodex h f) := by
  refine (spares_codex h).discard.bind fun _ _ => spares_update other fun p avoids => ?_
  cases p with
  | codex entries => exact keeps entries avoids
  | _ => exact avoids

theorem spares_editForm (other : h ≠ s) {f : Form → Form}
    (keeps : ∀ form, (Object.form form).Avoids s → (Object.form (f form)).Avoids s) :
    Spares s env (editForm h f) := by
  refine (spares_form h).discard.bind fun _ _ => spares_update other fun p avoids => ?_
  cases p with
  | form form => exact keeps form avoids
  | _ => exact avoids

theorem spares_editImitation (other : h ≠ s) {f : Imitation → Imitation}
    (keeps : ∀ i, (Object.imitation i).Avoids s → (Object.imitation (f i)).Avoids s) :
    Spares s env (editImitation h f) := by
  refine (spares_imitation h).discard.bind fun _ _ => spares_update other fun p avoids => ?_
  cases p with
  | imitation i => exact keeps i avoids
  | _ => exact avoids

theorem spares_newText (content : String) : Spares s env (newText content) (·.Avoids s) :=
  (Spares.allocate (Object.avoids_text content)).bind fun _ other =>
    .pure ((Value.avoids_text).mpr other)

theorem spares_newBook {pages : Array Value} (avoids : (Object.book pages).Avoids s) :
    Spares s env (newBook pages) (·.Avoids s) :=
  (Spares.allocate avoids).bind fun _ other => .pure ((Value.avoids_book).mpr other)

/-- A book grows by values that avoid the slot. -/
theorem spares_push (other : h ≠ s) {v : Value} (avoids : v.Avoids s) :
    Spares s env (editBook h (·.push v)) := by
  refine spares_editBook other fun pages kept w member => ?_
  simp only [Object.links, Array.toList_push, List.mem_append, List.mem_singleton] at member
  rcases member with before | rfl
  · exact kept w before
  · exact avoids

end Objects

section Messages

theorem spares_throwMessage {form : Handle} (other : form ≠ s) (message : String) :
    Spares s env (throwMessage form message : Run α) P := by
  refine (Spares.allocate (Object.avoids_text message)).bind fun text written => ?_
  have avoids : (Object.imitation { form, matter := #[.text text] }).Avoids s := by
    simp [other, written]
  exact (Spares.allocate avoids).bind fun _ made => .raise ((Value.avoids_imitation).mpr made)

theorem spares_complain (complaint : Complaint) :
    Spares s env (complain complaint : Run α) P :=
  .get fun _ _ secluded => spares_throwMessage secluded.builtins.1 complaint.message

theorem spares_report (context : String) (trouble : Trouble) :
    Spares s env (report context trouble : Run α) P :=
  .get fun _ _ secluded => spares_throwMessage secluded.builtins.2.1 _

/-- A message about a value names its type. -/
theorem spares_complainOf (v : Value) (complaint : String → Complaint) :
    Spares s env (do complain (complaint (← typeName v)) : Run α) P :=
  (spares_typeName v).bind fun _ _ => spares_complain _

theorem spares_cannotConvert (v : Value) (target : String) :
    Spares s env (cannotConvert v target : Run α) P :=
  spares_complainOf _ _

end Messages

section Conversions

variable (calls : env.Spares s)
include calls

theorem spares_callChange {receiver : Value} {name : String} {args : List Value}
    (given : ∀ v ∈ args, v.Avoids s) :
    Spares s env (callChange? receiver name args) fun found => ∀ v, found = some v → v.Avoids s := by
  have looks : Spares s env (changeOf? receiver name) fun found => ∀ c, found = some c → c ≠ s :=
    .onHeap fun _ objects => (Heap.other_changeOf? objects name receiver).1
  refine looks.bind fun change other => ?_
  cases change with
  | none => exact .pure fun _ same => by cases same
  | some change =>
    have avoids : (Value.journey change).Avoids s := (Value.avoids_journey).mpr (other change rfl)
    refine (Spares.call calls avoids given).bind fun result own => .pure fun v same => ?_
    cases same
    exact own

/-- A change is called where there is one; what is done otherwise is given. -/
theorem spares_byChange {receiver : Value} {name : String} {args : List Value}
    {next : Option Value → Run α} (given : ∀ v ∈ args, v.Avoids s)
    (found : ∀ v, v.Avoids s → Spares s env (next (some v)) P)
    (missing : Spares s env (next none) P) :
    Spares s env (callChange? receiver name args >>= next) P := by
  refine (spares_callChange calls given).bind fun result own => ?_
  cases result with
  | none => exact missing
  | some v => exact found v (own v rfl)

theorem spares_convertBy {v : Value} (avoids : v.Avoids s) (change : String) (expected : Genus) :
    Spares s env (convertBy? v change expected) fun found =>
      ∀ w, found = some w → w.Avoids s := by
  refine spares_byChange calls (by simpa using avoids) (fun result own => ?_)
    (.pure fun _ same => by cases same)
  refine .ite (.pure fun w same => ?_) (spares_complainOf _ _)
  cases same
  exact own

/-- A value is converted by a change where there is one; what is done otherwise is given. -/
theorem spares_converted {v : Value} {change : String} {expected : Genus}
    {next : Option Value → Run α} (avoids : v.Avoids s)
    (found : ∀ w, w.Avoids s → Spares s env (next (some w)) P)
    (missing : Spares s env (next none) P) :
    Spares s env (convertBy? v change expected >>= next) P := by
  refine (spares_convertBy calls avoids change expected).bind fun result own => ?_
  cases result with
  | none => exact missing
  | some w => exact found w (own w rfl)

theorem spares_textWithin (room : Nat) (path : List Handle) {v : Value} (avoids : v.Avoids s) :
    Spares s env (textWithin room path v) := by
  induction room using Nat.strong_induction_on generalizing path v with
  | _ room ih =>
    cases v <;> unfold textWithin
    case ni | veracity | numeral => exact .pure trivial
    case text => exact spares_text _
    case form => exact (spares_form _).bind fun _ _ => .pure trivial
    case other => exact (spares_other _).bind fun _ _ => .pure trivial
    case book h =>
      refine .ite (.pure trivial) ?_
      cases room with
      | zero => exact .fail
      | succ room =>
        refine (spares_book h).bind fun pages own => ?_
        refine (Spares.withPinned (.mapM fun page member => ?_)).bind fun _ _ => .pure trivial
        exact ih room (Nat.lt_succ_self room) (h :: path) (own page member)
    case codex h =>
      refine .ite (.pure trivial) ?_
      cases room with
      | zero => exact .fail
      | succ room =>
        refine (spares_codex h).bind fun entries own => ?_
        refine (Spares.withPinned (.mapM fun entry member => ?_)).bind fun _ _ => .pure trivial
        have parts := (Object.avoids_codex).mp own entry member
        exact (ih room (Nat.lt_succ_self room) (h :: path) parts.1).bind fun _ _ =>
          (ih room (Nat.lt_succ_self room) (h :: path) parts.2).bind fun _ _ => .pure trivial
    case imitation =>
      exact spares_converted calls avoids
        (fun _ own => (spares_expected own _).bind fun _ _ => spares_text _)
        (spares_cannotConvert _ _)
    case journey => exact spares_cannotConvert _ _

theorem spares_toText {v : Value} (avoids : v.Avoids s) : Spares s env (toText v) :=
  .get fun _ _ _ => spares_textWithin calls _ [] avoids

theorem spares_toTextValue {v : Value} (avoids : v.Avoids s) :
    Spares s env (toTextValue v) (·.Avoids s) := by
  unfold toTextValue
  split
  · exact .pure avoids
  · exact (spares_toText calls avoids).bind fun _ _ => spares_newText _

theorem spares_toNumeral {v : Value} (avoids : v.Avoids s) : Spares s env (toNumeral v) := by
  cases v
  case ni | veracity | numeral => exact .pure trivial
  case text => exact (spares_text _).bind fun _ _ => .pure trivial
  case book => exact (spares_book _).bind fun _ _ => .pure trivial
  case codex => exact (spares_codex _).bind fun _ _ => .pure trivial
  case imitation =>
    exact spares_converted calls avoids (fun _ _ => .ofExcept fun _ _ => trivial)
      (spares_cannotConvert _ _)
  case form | journey | other => exact spares_cannotConvert _ _

theorem spares_toVeracity {v : Value} (avoids : v.Avoids s) : Spares s env (toVeracity v) := by
  cases v
  case ni | veracity | numeral => exact .pure trivial
  case text => exact (spares_text _).bind fun _ _ => .pure trivial
  case book => exact (spares_book _).bind fun _ _ => .pure trivial
  case codex => exact (spares_codex _).bind fun _ _ => .pure trivial
  case imitation =>
    exact spares_converted calls avoids (fun _ _ => .pure trivial) (spares_cannotConvert _ _)
  case form | journey | other => exact spares_cannotConvert _ _

theorem spares_length {v : Value} (avoids : v.Avoids s) : Spares s env (length v) := by
  cases v
  case text => exact (spares_text _).bind fun _ _ => .pure trivial
  case book => exact (spares_book _).bind fun _ _ => .pure trivial
  case codex => exact (spares_codex _).bind fun _ _ => .pure trivial
  case imitation =>
    exact spares_converted calls avoids (fun _ _ => .ofExcept fun _ _ => trivial)
      (spares_complainOf _ _)
  all_goals exact spares_complainOf _ _

end Conversions

theorem spares_genusOf (v : Value) : Spares s env (genusOf v) (·.Avoids s) := by
  unfold genusOf
  split
  · refine (spares_imitation _).bind fun i own => .pure ?_
    exact (Value.avoids_form).mpr ((Object.avoids_imitation).mp own).1
  · exact .get fun _ _ _ => spares_newText _
  · exact spares_newText _

section Equality

variable {equal : Value → Value → Run Bool}
  (fair : ∀ a b, a.Avoids s → b.Avoids s → Spares s env (equal a b))
include fair

theorem spares_findKey {key : Value} (sought : key.Avoids s) (position : Nat)
    {entries : List (Value × Value)} (avoids : (Object.codex entries).Avoids s) :
    Spares s env (findKey? equal key position entries) fun place =>
      ∀ found, place = some found → found.2.Avoids s := by
  rw [Object.avoids_codex] at avoids
  induction entries generalizing position with
  | nil => exact .pure fun _ same => by cases same
  | cons entry entries ih =>
    have own := avoids entry (List.mem_cons_self ..)
    refine (fair entry.1 key own.1 sought).bind fun _ _ => .ite (.pure fun found same => ?_)
      (ih (position + 1) fun e member => avoids e (List.mem_cons_of_mem _ member))
    cases same
    exact own.2

theorem spares_searchCodex (h : Handle) {key : Value} (sought : key.Avoids s) :
    Spares s env (searchCodex equal h key) fun place =>
      ∀ found, place = some found → found.2.Avoids s :=
  (spares_codex h).bind fun _ own => .withPinned (spares_findKey fair sought 0 own)

theorem spares_equalPages {pairs : List (Value × Value)}
    (avoid : ∀ e ∈ pairs, e.1.Avoids s ∧ e.2.Avoids s) :
    Spares s env (equalPages equal pairs) := by
  induction pairs with
  | nil => exact .pure trivial
  | cons pair pairs ih =>
    have own := avoid pair (List.mem_cons_self ..)
    exact (fair pair.1 pair.2 own.1 own.2).bind fun _ _ =>
      .ite (ih fun e member => avoid e (List.mem_cons_of_mem _ member)) (.pure trivial)

theorem spares_equalEntries {lookup : Value → Run (Option (Nat × Value))}
    (looks : ∀ key, key.Avoids s → Spares s env (lookup key) fun place =>
      ∀ found, place = some found → found.2.Avoids s)
    {entries : List (Value × Value)} (avoid : ∀ e ∈ entries, e.1.Avoids s ∧ e.2.Avoids s) :
    Spares s env (equalEntries equal lookup entries) := by
  induction entries with
  | nil => exact .pure trivial
  | cons entry entries ih =>
    have own := avoid entry (List.mem_cons_self ..)
    refine (looks entry.1 own.1).bind fun place other => ?_
    cases place with
    | none => exact .pure trivial
    | some found =>
      exact (fair entry.2 found.2 own.2 (other found rfl)).bind fun _ _ =>
        .ite (ih fun e member => avoid e (List.mem_cons_of_mem _ member)) (.pure trivial)

end Equality

section Codices

theorem spares_editEntry (other : h ≠ s) (position : Nat)
    {f : List (Value × Value) → List (Value × Value)}
    (keeps : ∀ entries, (Object.codex entries).Avoids s → (Object.codex (f entries)).Avoids s) :
    Spares s env (editEntry h position f) :=
  (spares_codex h).bind fun _ _ => .ite (spares_editCodex other keeps) .fail

theorem spares_removeEntry (other : h ≠ s) (position : Nat) :
    Spares s env (removeEntry h position) := by
  refine (spares_codex h).bind fun _ _ => .ite (.modify fun o m secluded => ?_) .fail
  refine ⟨secluded.remove other (fun p avoids => ?_) _, rfl⟩
  cases p with
  | codex entries =>
    rw [Object.avoids_codex] at avoids
    exact Object.avoids_codex.mpr fun e member => avoids e (List.mem_of_mem_eraseIdx member)
  | _ => exact avoids

theorem spares_pushPairs {target : Handle} (other : target ≠ s) {pairs : List (Value × Value)}
    (avoid : ∀ e ∈ pairs, e.1.Avoids s ∧ e.2.Avoids s) :
    Spares s env (pushPairs target pairs) := by
  induction pairs with
  | nil => exact .pure trivial
  | cons pair pairs ih =>
    have own := avoid pair (List.mem_cons_self ..)
    have book : (Object.book #[pair.1, pair.2]).Avoids s := by simp [own]
    refine (spares_newBook book).bind fun made fresh => ?_
    exact (spares_push other fresh).bind fun _ _ =>
      ih fun e member => avoid e (List.mem_cons_of_mem _ member)

theorem spares_pushTexts {target : Handle} (other : target ≠ s) (texts : List String) :
    Spares s env (pushTexts target texts) := by
  induction texts with
  | nil => exact .pure trivial
  | cons content texts ih =>
    exact (spares_newText content).bind fun _ fresh =>
      (spares_push other fresh).bind fun _ _ => ih

variable (calls : env.Spares s)
include calls

theorem spares_eqlWithin (room : Nat) (comparing : List (Handle × Handle)) {lhs rhs : Value}
    (left : lhs.Avoids s) (right : rhs.Avoids s) :
    Spares s env (eqlWithin room comparing lhs rhs) := by
  induction room generalizing comparing lhs rhs with
  | zero => exact .fail
  | succ room ih =>
    unfold eqlWithin
    split
    · exact .ite (.pure trivial) ((spares_text _).bind fun _ _ =>
        (spares_text _).bind fun _ _ => .pure trivial)
    · refine .ite (.pure trivial) ((spares_book _).bind fun one first => ?_)
      refine (spares_book _).bind fun two second => .ite (.pure trivial) (.withPinned ?_)
      refine spares_equalPages (fun a b => ih _) fun e member => ?_
      exact ⟨first e.1 (List.of_mem_zip member).1, second e.2 (List.of_mem_zip member).2⟩
    · refine .ite (.pure trivial) ((spares_codex _).bind fun one first => ?_)
      refine (spares_codex _).bind fun two second => .ite (.pure trivial) (.withPinned ?_)
      exact spares_equalEntries (fun a b => ih _)
        (fun key sought => spares_searchCodex (fun a b => ih []) _ sought)
        ((Object.avoids_codex).mp first)
    · exact spares_byChange calls (by simp [left, right])
        (fun v own => spares_toVeracity calls own) (.pure trivial)
    · exact .pure trivial

theorem spares_eql {lhs rhs : Value} (left : lhs.Avoids s) (right : rhs.Avoids s) :
    Spares s env (eql lhs rhs) :=
  .get fun _ _ _ => .read (spares_eqlWithin calls _ [] left right)

theorem spares_codexPosition (h : Handle) {key : Value} (sought : key.Avoids s) :
    Spares s env (codexPosition? h key) fun place =>
      ∀ found, place = some found → found.2.Avoids s :=
  spares_searchCodex (fun _ _ => spares_eql calls) h sought

theorem spares_codexLookup (h : Handle) {key : Value} (sought : key.Avoids s) :
    Spares s env (codexLookup? h key) fun found => ∀ v, found = some v → v.Avoids s := by
  refine (spares_codexPosition calls h sought).bind fun place own => .pure fun v same => ?_
  obtain ⟨found, there, rfl⟩ := Option.map_eq_some_iff.mp same
  exact own found there

theorem spares_codexInsert (other : h ≠ s) {key value : Value} (sought : key.Avoids s)
    (stored : value.Avoids s) : Spares s env (codexInsert h key value) := by
  refine (Spares.withPinned (spares_codexPosition calls h sought)).bind fun place own => ?_
  cases place with
  | none =>
    refine spares_editCodex other fun entries avoids => ?_
    rw [Object.avoids_codex] at avoids ⊢
    intro e member
    rcases List.mem_append.mp member with before | added
    · exact avoids e before
    · cases List.mem_singleton.mp added
      exact ⟨sought, stored⟩
  | some found =>
    refine spares_editEntry other _ fun entries avoids => ?_
    rw [Object.avoids_codex] at avoids ⊢
    intro e member
    rcases mem_modify member with before | ⟨b, before, rfl⟩
    · exact avoids e before
    · exact ⟨(avoids b before).1, stored⟩

theorem spares_codexRemove (other : h ≠ s) {key : Value} (sought : key.Avoids s) :
    Spares s env (codexRemove? h key) fun found => ∀ v, found = some v → v.Avoids s := by
  refine (spares_codexPosition calls h sought).bind fun place own => ?_
  cases place with
  | none => exact .pure fun _ same => by cases same
  | some found =>
    refine (spares_removeEntry other _).bind fun _ _ => .pure fun v same => ?_
    cases same
    exact own found rfl

theorem spares_codexInsertAll (other : h ≠ s) {entries : List (Value × Value)}
    (avoid : ∀ e ∈ entries, e.1.Avoids s ∧ e.2.Avoids s) :
    Spares s env (codexInsertAll h entries) := by
  induction entries with
  | nil => exact .pure trivial
  | cons entry entries ih =>
    have own := avoid entry (List.mem_cons_self ..)
    exact (spares_codexInsert calls other own.1 own.2).bind fun _ _ =>
      ih fun e member => avoid e (List.mem_cons_of_mem _ member)

theorem spares_newCodex {entries : List (Value × Value)}
    (avoid : ∀ e ∈ entries, e.1.Avoids s ∧ e.2.Avoids s) :
    Spares s env (newCodex entries) (·.Avoids s) := by
  have empty : (Object.codex []).Avoids s := by simp
  refine (Spares.withPinned (.allocate empty)).bind fun made other => .withPinned ?_
  exact (spares_codexInsertAll calls other avoid).bind fun _ _ =>
    .pure ((Value.avoids_codex).mpr other)

theorem spares_toBook {v : Value} (avoids : v.Avoids s) :
    Spares s env (toBook v) (·.Avoids s) := by
  have empty : (Object.book #[]).Avoids s := by simp
  cases v
  case book => exact .pure avoids
  case ni => exact spares_newBook empty
  case numeral =>
    refine spares_newBook fun v member => ?_
    obtain ⟨c, _, rfl⟩ := List.mem_map.mp member
    exact Value.avoids_numeral _
  case text =>
    refine (spares_text _).bind fun _ _ => (Spares.allocate empty).bind fun made other => ?_
    exact .withPinned ((spares_pushTexts other _).bind fun _ _ =>
      .pure ((Value.avoids_book).mpr other))
  case codex =>
    refine (spares_codex _).bind fun entries own => (Spares.allocate empty).bind fun made other => ?_
    exact .withPinned ((spares_pushPairs other ((Object.avoids_codex).mp own)).bind fun _ _ =>
      .pure ((Value.avoids_book).mpr other))
  case imitation =>
    exact spares_converted calls avoids (fun _ own => .pure own) (spares_cannotConvert _ _)
  case veracity | form | journey | other => exact spares_cannotConvert _ _

theorem spares_toCodex {v : Value} (avoids : v.Avoids s) :
    Spares s env (toCodex v) (·.Avoids s) := by
  cases v
  case codex => exact .pure avoids
  case ni => exact spares_newCodex calls fun _ member => absurd member List.not_mem_nil
  case book =>
    refine (spares_book _).bind fun pages own => .withPinned (spares_newCodex calls ?_)
    intro e member
    obtain ⟨i, inside, rfl⟩ := List.mem_mapIdx.mp member
    exact ⟨Value.avoids_numeral _, own _ (List.getElem_mem inside)⟩
  case imitation =>
    exact spares_converted calls avoids (fun _ own => .pure own) (spares_cannotConvert _ _)
  all_goals exact spares_cannotConvert _ _

end Codices

end Run

end JourneyMachine
