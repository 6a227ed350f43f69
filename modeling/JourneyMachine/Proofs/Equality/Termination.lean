import JourneyMachine.Proofs.Closure.Bare
import JourneyMachine.Proofs.Equality.Decision

/-! Where comparisons end. The pages and the values of an entry are compared on the path of the
whole, which repeats no pair of slots. A look-up of a key starts a path of its own, but from then on
both codices are out of reach unless one of them is inside one of its own keys. Where no codex is,
so many look-ups can follow on each other as there are codices inside the values, and the room that
equality gives itself is enough. Two codices that are each their own key are compared for ever. -/

namespace JourneyMachine

namespace Heap

variable {heap : Heap} {C : List (Handle × Handle)} {a b v w : Value} {h l r : Handle}
  {entries left right : List (Value × Value)} {e f : Value × Value}

/-- A page of a book, or a key or a value of a codex. -/
inductive Part (heap : Heap) : Value → Value → Prop
  | page {h : Handle} {pages : Array Value} {v : Value} :
      heap.get? h = some (.book pages) → v ∈ pages.toList → Part heap (.book h) v
  | key {h : Handle} {entries : List (Value × Value)} {e : Value × Value} :
      heap.get? h = some (.codex entries) → e ∈ entries → Part heap (.codex h) e.1
  | value {h : Handle} {entries : List (Value × Value)} {e : Value × Value} :
      heap.get? h = some (.codex entries) → e ∈ entries → Part heap (.codex h) e.2

def Contains (heap : Heap) : Value → Value → Prop := Relation.ReflTransGen heap.Part

/-- No codex is inside one of its own keys. -/
def Grounded (heap : Heap) : Prop :=
  ∀ h entries, heap.get? h = some (.codex entries) → ∀ e ∈ entries, ¬ heap.Contains e.1 (.codex h)

open Classical in
noncomputable def codicesIn (heap : Heap) (v : Value) : Finset Nat :=
  (Finset.range heap.capacity).filter fun slot => heap.Contains v (.codex ⟨slot⟩)

/-- How many look-ups of keys can follow on each other when two values are compared. -/
noncomputable def nesting (heap : Heap) (a b : Value) : Nat :=
  min (heap.codicesIn a).card (heap.codicesIn b).card

theorem mem_codicesIn {slot : Nat} :
    slot ∈ heap.codicesIn v ↔ slot < heap.capacity ∧ heap.Contains v (.codex ⟨slot⟩) := by
  simp [codicesIn]

theorem codicesIn_part (part : heap.Part v w) : heap.codicesIn w ⊆ heap.codicesIn v := by
  intro slot member
  rw [mem_codicesIn] at member ⊢
  exact ⟨member.1, .head part member.2⟩

/-- A codex is in itself, but not in its keys. -/
theorem Grounded.codicesIn_key (grounded : heap.Grounded) (used : heap.get? h = some (.codex entries))
    (member : e ∈ entries) : (heap.codicesIn e.1).card < (heap.codicesIn (.codex h)).card := by
  apply Finset.card_lt_card
  rw [Finset.ssubset_iff_of_subset (codicesIn_part (.key used member))]
  apply Exists.intro h.slot
  constructor
  · rw [mem_codicesIn]
    exact ⟨lt_capacity used, .refl⟩
  · rw [mem_codicesIn]
    intro inside
    exact grounded h entries used e member inside.2

theorem nesting_le_capacity : heap.nesting a b ≤ heap.capacity := by
  have bound : (heap.codicesIn a).card ≤ heap.capacity := by
    have sub : heap.codicesIn a ⊆ Finset.range heap.capacity := by
      intro slot member
      exact Finset.mem_range.mpr (mem_codicesIn.mp member).1
    simpa using Finset.card_le_card sub
  exact (Nat.min_le_left _ _).trans bound

theorem nesting_parts (left : heap.Part a v) (right : heap.Part b w) :
    heap.nesting v w ≤ heap.nesting a b := by
  have one := Finset.card_le_card (codicesIn_part left)
  have two := Finset.card_le_card (codicesIn_part right)
  unfold nesting
  omega

theorem Grounded.nesting_keys (grounded : heap.Grounded) (used : heap.get? l = some (.codex left))
    (other : heap.get? r = some (.codex right)) (member : e ∈ left) (there : f ∈ right) :
    heap.nesting f.1 e.1 < heap.nesting (.codex l) (.codex r) := by
  have one := grounded.codicesIn_key used member
  have two := grounded.codicesIn_key other there
  unfold nesting
  omega

theorem read_tooDeep {α : Type} {expected : Genus} {part? : Object → Option α} :
    heap.read expected part? h ≠ .error .tooDeep := by
  unfold read
  split
  · simp
  · split <;> simp

/-- If no form has the change, the search on an imitation ends. -/
theorem changeOf?_unchanged
    (unchanged : ∀ h f, heap.get? h = some (.form f) → heap.change? h "==" = .ok none) :
    heap.changeOf? v "==" = .ok none ∨
      ∃ fault, fault ≠ .tooDeep ∧ heap.changeOf? v "==" = .error fault := by
  cases v with
  | imitation h =>
    simp only [changeOf?]
    cases same : heap.imitation h with
    | error fault =>
      right
      apply Exists.intro fault
      constructor
      · rintro rfl
        exact read_tooDeep same
      · rfl
    | ok i =>
      cases own : heap.form i.form with
      | ok f =>
        left
        exact unchanged i.form f (form_ok own)
      | error fault =>
        right
        apply Exists.intro fault
        constructor
        · rintro rfl
          exact read_tooDeep own
        · change heap.changeWithin "==" (heap.capacity + 1) i.form = _
          rw [changeWithin, own]
          rfl
  | _ => exact .inl rfl

end Heap

namespace Run

variable {α β : Type} {env : Env} {m : Machine}

/-- A computation ends in a value or in a fault, but not for want of room, and leaves the machine as
it is. -/
def Settles (env : Env) (m : Machine) (c : Run α) (post : α → Prop) : Prop :=
  (∃ a, c env m = .ok a m ∧ post a) ∨
    ∃ fault, fault ≠ .tooDeep ∧ c env m = .error (.fatal fault) m

section Rules

variable {c : Run α} {next : α → Run β} {post : α → Prop} {after : β → Prop} {h : Handle}

theorem Settles.pure {a : α} (holds : post a) : Settles env m (pure a) post := .inl ⟨a, rfl, holds⟩

theorem Settles.bind (first : Settles env m c post)
    (rest : ∀ a, post a → Settles env m (next a) after) : Settles env m (c >>= next) after := by
  rcases first with ⟨a, done, holds⟩ | ⟨fault, other, failed⟩
  · rcases rest a holds with ⟨b, ended, last⟩ | ⟨fault, other, failed⟩
    · exact .inl ⟨b, (bind_ok done).trans ended, last⟩
    · exact .inr ⟨fault, other, (bind_ok done).trans failed⟩
  · exact .inr ⟨fault, other, bind_error failed⟩

theorem withPinned_error {values : List Value} {fault : Fault}
    (failed : c env (m.pin values) = .error (.fatal fault) (m.pin values)) :
    withPinned values c env m = .error (.fatal fault) m := by
  rw [withPinned_eq, failed]
  exact congrArg _ (m.unpin_pin values)

theorem Settles.withPinned {values : List Value} (body : Settles env (m.pin values) c post) :
    Settles env m (withPinned values c) post := by
  rcases body with ⟨a, done, holds⟩ | ⟨fault, other, failed⟩
  · left
    apply Exists.intro a
    constructor
    · rw [withPinned_eq, done]
      exact congrArg _ (m.unpin_pin values)
    · exact holds
  · exact .inr ⟨fault, other, withPinned_error failed⟩

theorem settles_read {expected : Genus} {part? : Object → Option α} {object : α → Object}
    (reads : ∀ a, m.heap.read expected part? h = .ok a → m.heap.get? h = some (object a)) :
    Settles env m (onHeap (·.read expected part? h)) fun a => m.heap.get? h = some (object a) := by
  cases same : m.heap.read expected part? h with
  | ok a =>
    left
    exact ⟨a, by simp [onHeap, same], reads a same⟩
  | error fault =>
    right
    apply Exists.intro fault
    constructor
    · rintro rfl
      exact Heap.read_tooDeep same
    · simp [onHeap, same]

theorem settles_text : Settles env m (text h) fun _ => True := by
  have read : Settles env m (text h) _ := settles_read fun _ => Heap.text_ok
  exact read.imp (fun ⟨a, done, _⟩ => ⟨a, done, trivial⟩) id

theorem settles_book :
    Settles env m (book h) fun pages => m.heap.get? h = some (.book pages) :=
  settles_read fun _ => Heap.book_ok

theorem settles_codex :
    Settles env m (codex h) fun entries => m.heap.get? h = some (.codex entries) :=
  settles_read fun _ => Heap.codex_ok

end Rules

section Comparing

variable {equal : Value → Value → Run Bool} {entries : List (Value × Value)} {key : Value}
  {h : Handle}

theorem settles_findKey (position : Nat)
    (each : ∀ e ∈ entries, Settles env m (equal e.1 key) fun _ => True) :
    Settles env m (findKey? equal key position entries) fun found =>
      ∀ i v, found = some (i, v) → ∃ e ∈ entries, e.2 = v := by
  induction entries generalizing position with
  | nil => exact .pure (by simp)
  | cons e rest ih =>
    apply (each e (List.mem_cons_self ..)).bind
    intro same _
    cases same with
    | true =>
      apply Settles.pure
      intro i v found
      cases found
      exact ⟨e, List.mem_cons_self .., rfl⟩
    | false =>
      have later := ih (position + 1) fun f member => each f (List.mem_cons_of_mem _ member)
      apply later.imp _ id
      rintro ⟨found, done, source⟩
      refine ⟨found, done, fun i v same => ?_⟩
      obtain ⟨f, member, value⟩ := source i v same
      exact ⟨f, List.mem_cons_of_mem _ member, value⟩

theorem settles_searchCodex
    (each : ∀ entries, m.heap.get? h = some (.codex entries) → ∀ e ∈ entries, ∀ m' : Machine,
      m'.heap = m.heap → Settles env m' (equal e.1 key) fun _ => True) :
    Settles env m (searchCodex equal h key) fun found => ∀ i v, found = some (i, v) →
      ∃ entries, m.heap.get? h = some (.codex entries) ∧ ∃ e ∈ entries, e.2 = v := by
  apply settles_codex.bind
  intro entries used
  apply Settles.withPinned
  have found : Settles env (m.pin ((entries.flatMap fun e => [e.1, e.2]) ++ [key])) _ _ :=
    settles_findKey 0 fun e member => each entries used e member _ rfl
  apply found.imp _ id
  rintro ⟨result, done, source⟩
  exact ⟨result, done, fun i v same => ⟨entries, used, source i v same⟩⟩

theorem settles_equalPages {pairs : List (Value × Value)}
    (each : ∀ p ∈ pairs, Settles env m (equal p.1 p.2) fun _ => True) :
    Settles env m (equalPages equal pairs) fun _ => True := by
  induction pairs with
  | nil => exact .pure trivial
  | cons p rest ih =>
    apply (each p (List.mem_cons_self ..)).bind
    intro same _
    cases same with
    | true => exact ih fun q member => each q (List.mem_cons_of_mem _ member)
    | false => exact .pure trivial

theorem settles_equalEntries {lookup : Value → Run (Option (Nat × Value))}
    (each : ∀ e ∈ entries, Settles env m (lookup e.1) fun found =>
      ∀ i v, found = some (i, v) → Settles env m (equal e.2 v) fun _ => True) :
    Settles env m (equalEntries equal lookup entries) fun _ => True := by
  induction entries with
  | nil => exact .pure trivial
  | cons e rest ih =>
    apply (each e (List.mem_cons_self ..)).bind
    intro found values
    cases found with
    | none => exact .pure trivial
    | some place =>
      apply (values place.1 place.2 rfl).bind
      intro same _
      cases same with
      | true => exact ih fun f member => each f (List.mem_cons_of_mem _ member)
      | false => exact .pure trivial

/-- An imitation is compared by the change of its form, and no form has one. -/
theorem settles_callChange
    (unchanged : ∀ h f, m.heap.get? h = some (.form f) → m.heap.change? h "==" = .ok none)
    (h : Handle) (b : Value) :
    Settles env m (callChange? (.imitation h) "==" [.imitation h, b]) fun found => found = none := by
  rcases Heap.changeOf?_unchanged (v := .imitation h) unchanged with absent | ⟨fault, other, failed⟩
  · left
    have nothing : changeOf? (.imitation h) "==" env m = .ok none m :=
      (onHeap_eq_ok).mpr ⟨absent, rfl⟩
    exact ⟨none, bind_ok nothing, rfl⟩
  · right
    apply Exists.intro fault
    constructor
    · exact other
    · apply bind_error
      simp [changeOf?, onHeap, failed]

/-- Values are compared to the end if there is room for what is left of the path and, for each
look-up that may follow, for another path. -/
theorem settles_eqlWithin {heap : Heap} {C : List (Handle × Handle)} {a b : Value}
    (unchanged : ∀ h f, heap.get? h = some (.form f) → heap.change? h "==" = .ok none)
    (grounded : heap.Grounded) (room : Nat) (path : heap.Path C)
    (enough : heap.nesting a b * (heap.capacity * heap.capacity + 1) +
      heap.capacity * heap.capacity < room + C.length) (same : m.heap = heap) :
    Settles env m (eqlWithin room C a b) fun _ => True := by
  -- On the rounds: a path that is full leaves none to spare, and each pair of containers lengthens
  -- it.
  induction room generalizing C a b m with
  | zero =>
    have := path.length_le
    omega
  | succ room ih =>
    subst same
    -- Parts are compared on a longer path.
    have parts : ∀ {l r : Handle} {o o' : Object} {v w : Value} {m' : Machine}, m'.heap = m.heap →
        m.heap.get? l = some o → m.heap.get? r = some o' → (l, r) ∉ C →
        m.heap.Part a v → m.heap.Part b w →
        Settles env m' (eqlWithin room ((l, r) :: C) v w) fun _ => True := by
      intro l r o o' v w m' same used other fresh left right
      apply ih (path.cons fresh used other)
      · have fewer := Nat.mul_le_mul_right (m.heap.capacity * m.heap.capacity + 1)
          (Heap.nesting_parts left right)
        simp only [List.length_cons]
        omega
      · exact same
    cases a with
    | ni | veracity | numeral | form | journey | other =>
      simp only [eqlWithin]
      exact .pure trivial
    | text l =>
      cases b with
      | text r =>
        simp only [eqlWithin]
        split
        · exact .pure trivial
        · exact settles_text.bind fun _ _ => settles_text.bind fun _ _ => .pure trivial
      | _ => exact .pure trivial
    | imitation h =>
      simp only [eqlWithin]
      apply (settles_callChange unchanged h b).bind
      rintro _ rfl
      exact .pure trivial
    | book l =>
      cases b with
      | book r =>
        rw [eqlWithin]
        split
        · exact .pure trivial
        · rename_i unknown
          have fresh : (l, r) ∉ C := fun member => unknown (.inr member)
          apply settles_book.bind
          intro left used
          apply settles_book.bind
          intro right other
          split
          · exact .pure trivial
          · apply Settles.withPinned
            apply settles_equalPages
            intro p member
            have inside := List.of_mem_zip (show (p.1, p.2) ∈ _ from member)
            exact parts rfl used other fresh (.page used inside.1) (.page other inside.2)
      | _ => exact .pure trivial
    | codex l =>
      cases b with
      | codex r =>
        rw [eqlWithin]
        split
        · exact .pure trivial
        · rename_i unknown
          have fresh : (l, r) ∉ C := fun member => unknown (.inr member)
          apply settles_codex.bind
          intro left used
          apply settles_codex.bind
          intro right other
          split
          · exact .pure trivial
          · apply Settles.withPinned
            apply settles_equalEntries
            intro e member
            have longer := (path.cons fresh used other).length_le
            -- Keys are compared on a path of their own, with one codex less on either side.
            have keys : ∀ entries, m.heap.get? r = some (.codex entries) → ∀ f ∈ entries, ∀ m',
                m'.heap = m.heap → Settles env m' (eqlWithin room [] f.1 e.1) fun _ => True := by
              intro entries there f inside m' same
              apply ih ⟨by simp, by simp⟩
              · have fewer := Nat.mul_le_mul_right (m.heap.capacity * m.heap.capacity + 1)
                  (grounded.nesting_keys used there member inside)
                simp only [List.length_cons, List.length_nil, Nat.succ_mul] at fewer longer ⊢
                omega
              · exact same
            have found : Settles env (m.pin ((left.flatMap fun e => [e.1, e.2]) ++ [.codex r])) _ _ :=
              settles_searchCodex keys
            apply found.imp _ id
            rintro ⟨result, done, source⟩
            refine ⟨result, done, fun i v hit => ?_⟩
            obtain ⟨entries, there, f, inside, rfl⟩ := source i v hit
            exact parts rfl used other fresh (.value used member) (.value there inside)
      | _ => exact .pure trivial

end Comparing

section Room

variable {c c' : Run α} {next next' : α → Run β} {equal equal' : Value → Value → Run Bool}

/-- A computation that gives the same with more room, unless it had too little. -/
def Grows (c c' : Run α) : Prop :=
  ∀ env m, (∃ m', c env m = .error (.fatal .tooDeep) m') ∨ c env m = c' env m

theorem Grows.refl : Grows c c := fun _ _ => .inr rfl

theorem Grows.bind (first : Grows c c') (rest : ∀ a, Grows (next a) (next' a)) :
    Grows (c >>= next) (c' >>= next') := by
  intro env m
  rcases first env m with ⟨m', failed⟩ | same
  · exact .inl ⟨m', bind_error failed⟩
  · cases done : c env m with
    | ok a m' =>
      rw [bind_ok done, bind_ok (same ▸ done)]
      exact rest a env m'
    | error unwind m' =>
      rw [bind_error done, bind_error (same ▸ done)]
      exact .inr rfl

theorem Grows.withPinned {values : List Value} (body : Grows c c') :
    Grows (withPinned values c) (withPinned values c') := by
  intro env m
  rw [withPinned_eq, withPinned_eq]
  rcases body env (m.pin values) with ⟨m', failed⟩ | same
  · left
    rw [failed]
    exact ⟨m'.unpin m.pinned.length, rfl⟩
  · right
    rw [same]

theorem Grows.ite {test : Prop} [Decidable test] {d d' : Run α} (holds : Grows c c')
    (fails : Grows d d') : Grows (if test then c else d) (if test then c' else d') := by
  split
  · exact holds
  · exact fails

variable (equals : ∀ a b, Grows (equal a b) (equal' a b))
include equals

theorem grows_findKey (key : Value) (position : Nat) (entries : List (Value × Value)) :
    Grows (findKey? equal key position entries) (findKey? equal' key position entries) := by
  induction entries generalizing position with
  | nil => exact .refl
  | cons e rest ih => exact (equals e.1 key).bind fun _ => .ite .refl (ih (position + 1))

theorem grows_searchCodex (h : Handle) (key : Value) :
    Grows (searchCodex equal h key) (searchCodex equal' h key) :=
  Grows.refl.bind fun entries => (grows_findKey equals key 0 entries).withPinned

theorem grows_equalPages (pairs : List (Value × Value)) :
    Grows (equalPages equal pairs) (equalPages equal' pairs) := by
  induction pairs with
  | nil => exact .refl
  | cons p rest ih => exact (equals p.1 p.2).bind fun _ => .ite ih .refl

theorem grows_equalEntries {lookup lookup' : Value → Run (Option (Nat × Value))}
    (looks : ∀ key, Grows (lookup key) (lookup' key)) (entries : List (Value × Value)) :
    Grows (equalEntries equal lookup entries) (equalEntries equal' lookup' entries) := by
  induction entries with
  | nil => exact .refl
  | cons e rest ih =>
    apply (looks e.1).bind
    intro found
    cases found with
    | none => exact .refl
    | some place => exact (equals e.2 place.2).bind fun _ => .ite ih .refl

omit equals

theorem grows_eqlWithin (room : Nat) (C : List (Handle × Handle)) (a b : Value) :
    Grows (eqlWithin room C a b) (eqlWithin (room + 1) C a b) := by
  induction room generalizing C a b with
  | zero => exact fun _ m => .inl ⟨m, rfl⟩
  | succ room ih =>
    cases a with
    | book l =>
      cases b with
      | book r =>
        rw [eqlWithin, eqlWithin]
        apply Grows.ite .refl
        exact Grows.refl.bind fun left => Grows.refl.bind fun right =>
          .ite .refl (grows_equalPages (ih _) _).withPinned
      | _ => exact .refl
    | codex l =>
      cases b with
      | codex r =>
        rw [eqlWithin, eqlWithin]
        apply Grows.ite .refl
        exact Grows.refl.bind fun left => Grows.refl.bind fun right =>
          .ite .refl (grows_equalEntries (ih _) (grows_searchCodex (ih []) r) _).withPinned
      | _ => exact .refl
    | text l => cases b <;> exact .refl
    | _ => exact .refl

/-- Room beyond what a comparison needs makes no difference. -/
theorem eqlWithin_roomy {C : List (Handle × Handle)} {a b : Value} {room : Nat} {post : Bool → Prop}
    (settles : Settles env m (eqlWithin room C a b) post) (more : Nat) :
    eqlWithin (room + more) C a b env m = eqlWithin room C a b env m := by
  induction more with
  | zero => rfl
  | succ more ih =>
    rcases grows_eqlWithin (room + more) C a b env m with ⟨m', failed⟩ | same
    · rw [ih] at failed
      rcases settles with ⟨_, done, _⟩ | ⟨fault, other, ended⟩
      · cases done.symm.trans failed
      · cases ended.symm.trans failed
        exact (other rfl).elim
    · exact same.symm.trans ih

end Room

section Conclusions

variable {c : Run α} {next : α → Run β} {post : α → Machine → Prop} {after : β → Machine → Prop}

/-- A computation ends in a value or in a fault, but not for want of room. -/
def Concludes (env : Env) (m : Machine) (c : Run α) (post : α → Machine → Prop) : Prop :=
  (∃ a m', c env m = .ok a m' ∧ post a m') ∨
    ∃ fault m', fault ≠ .tooDeep ∧ c env m = .error (.fatal fault) m'

theorem Settles.concludes {holds : α → Prop} (settles : Settles env m c holds) :
    Concludes env m c fun a m' => m' = m ∧ holds a := by
  rcases settles with ⟨a, done, there⟩ | ⟨fault, other, failed⟩
  · exact .inl ⟨a, m, done, rfl, there⟩
  · exact .inr ⟨fault, m, other, failed⟩

theorem Concludes.pure {a : α} (holds : post a m) : Concludes env m (pure a) post :=
  .inl ⟨a, m, rfl, holds⟩

theorem Concludes.bind (first : Concludes env m c post)
    (rest : ∀ a m', post a m' → Concludes env m' (next a) after) :
    Concludes env m (c >>= next) after := by
  rcases first with ⟨a, m', done, holds⟩ | ⟨fault, m', other, failed⟩
  · rcases rest a m' holds with ⟨b, last, ended, holds⟩ | ⟨fault, last, other, failed⟩
    · exact .inl ⟨b, last, (bind_ok done).trans ended, holds⟩
    · exact .inr ⟨fault, last, other, (bind_ok done).trans failed⟩
  · exact .inr ⟨fault, m', other, bind_error failed⟩

theorem concludes_onFrame {f : Frame → Except Fault (α × Frame)}
    (roomy : ∀ frame, f frame ≠ .error .tooDeep) :
    Concludes env m (onFrame f) fun _ m' => m'.heap = m.heap := by
  cases frames : m.frames with
  | nil => exact .inr ⟨.malformed .noFrame, m, by simp, by simp [onFrame, frames]⟩
  | cons frame rest =>
    cases same : f frame with
    | ok result =>
      left
      exact ⟨result.1, _, onFrame_ok frames same, rfl⟩
    | error fault =>
      right
      apply Exists.intro fault
      apply Exists.intro m
      constructor
      · rintro rfl
        exact roomy frame same
      · exact onFrame_error frames same

theorem concludes_nextIndex : Concludes env m nextIndex fun _ m' => m'.heap = m.heap := by
  apply (concludes_onFrame fun frame => ?_).bind
  · exact fun _ _ same => .pure same
  · unfold Codeblock.word
    split <;> simp [bind, Except.bind, pure, Except.pure]

theorem concludes_nextValue : Concludes env m nextValue fun _ m' => m'.heap = m.heap := by
  apply concludes_nextIndex.bind
  intro i m₁ same
  have read : Concludes env m₁ (register i) fun _ m' => m'.heap = m₁.heap := by
    apply concludes_onFrame
    intro frame
    unfold Frame.register
    split <;> simp [bind, Except.bind, pure, Except.pure]
  rwa [same] at read

theorem concludes_store (v : Value) : Concludes env m (store v) fun _ m' => m'.heap = m.heap := by
  apply concludes_nextIndex.bind
  intro i m₁ same
  have written : Concludes env m₁ (setRegister i v) fun _ m' => m'.heap = m₁.heap := by
    apply concludes_onFrame
    intro frame
    unfold Frame.setRegister
    split <;> simp [bind, Except.bind, pure, Except.pure]
  rwa [same] at written

theorem concludes_editCodex (h : Handle) (f : List (Value × Value) → List (Value × Value)) :
    Concludes env m (editCodex h f) fun _ _ => True := by
  apply (settles_codex.concludes.bind fun _ _ _ => .pure trivial : Concludes env m
    (discard (codex h)) fun _ _ => True).bind
  intro _ m' _
  exact .inl ⟨(), _, rfl, trivial⟩

theorem concludes_editEntry (h : Handle) (position : Nat)
    (f : List (Value × Value) → List (Value × Value)) :
    Concludes env m (editEntry h position f) fun _ _ => True := by
  apply settles_codex.concludes.bind
  rintro entries m' ⟨rfl, _⟩
  split
  · exact concludes_editCodex h f
  · exact .inr ⟨.staleEntry position, m', by simp, rfl⟩

theorem concludes_removeEntry (h : Handle) (position : Nat) :
    Concludes env m (removeEntry h position) fun _ _ => True := by
  apply settles_codex.concludes.bind
  rintro entries m' ⟨rfl, _⟩
  split
  · exact .inl ⟨(), _, rfl, trivial⟩
  · exact .inr ⟨.staleEntry position, m', by simp, rfl⟩

theorem concludes_codexInsert {h : Handle} {key value : Value}
    (search : Settles env (m.pin [key, value]) (codexPosition? h key) fun _ => True) :
    Concludes env m (codexInsert h key value) fun _ _ => True := by
  apply search.withPinned.concludes.bind
  intro found m' _
  cases found with
  | none => exact concludes_editCodex ..
  | some place => exact concludes_editEntry ..

theorem concludes_codexRemove {h : Handle} {key : Value}
    (search : Settles env m (codexPosition? h key) fun _ => True) :
    Concludes env m (codexRemove? h key) fun _ _ => True := by
  apply search.concludes.bind
  intro found m' _
  cases found with
  | none => exact .pure trivial
  | some place => exact (concludes_removeEntry ..).bind fun _ _ _ => .pure trivial

theorem concludes_equality
    (compares : ∀ a b (m' : Machine), m'.heap = m.heap → Settles env m' (eql a b) fun _ => True) :
    Concludes env m (execute .eql) fun _ _ => True := by
  apply concludes_nextValue.bind
  intro a m₁ one
  apply concludes_nextValue.bind
  intro b m₂ two
  have compared : Concludes env m₂ (do return Value.veracity (← eql a b)) fun _ _ => True :=
    (compares a b m₂ (two.trans one)).concludes.bind fun _ _ _ => .pure trivial
  apply compared.bind
  intro v m₃ _
  exact (concludes_store v).bind fun _ _ _ => .pure trivial

end Conclusions

/-- In a heap in which no form defines or inherits `==` and no codex is inside one of its own keys,
equality ends on all values, whatever else they contain. It leaves the machine as it is, and more
room than a bound that depends on the heap makes no difference. The look-up, the storing and the
removal of a key end, and so does the instruction. -/
theorem eql_terminates
    (unchanged : ∀ h f, m.heap.get? h = some (.form f) → m.heap.change? h "==" = .ok none)
    (grounded : m.heap.Grounded) (env : Env) :
    (∀ a b, Settles env m (eql a b) (fun _ => True) ∧
      ∀ room, comparisonRoom m.heap.capacity < room →
        eqlWithin room [] a b env m = eql a b env m) ∧
    (∀ h key, Settles env m (codexLookup? h key) (fun _ => True) ∧
      (∀ value, Concludes env m (codexInsert h key value) fun _ _ => True) ∧
      Concludes env m (codexRemove? h key) fun _ _ => True) ∧
    Concludes env m (execute .eql) fun _ _ => True := by
  have within : ∀ a b (m' : Machine), m'.heap = m.heap → ∀ room,
      comparisonRoom m.heap.capacity < room →
      Settles env m' (eqlWithin room [] a b) fun _ => True := by
    intro a b m' same room enough
    apply settles_eqlWithin unchanged grounded room ⟨by simp, by simp⟩ _ same
    have most := Nat.mul_le_mul_right (m.heap.capacity * m.heap.capacity + 1)
      (Heap.nesting_le_capacity : m.heap.nesting a b ≤ _)
    simp only [comparisonRoom, List.length_nil] at enough ⊢
    omega
  have compares : ∀ a b (m' : Machine), m'.heap = m.heap →
      Settles env m' (eql a b) fun _ => True := by
    intro a b m' same
    exact within a b m' same (env.depth + comparisonRoom m'.heap.capacity + 1) (by rw [same]; omega)
  have searches : ∀ h key (m' : Machine), m'.heap = m.heap →
      Settles env m' (codexPosition? h key) fun _ => True := by
    intro h key m' same
    have found : Settles env m' (codexPosition? h key) _ :=
      settles_searchCodex fun _ _ e _ m'' equal => compares e.1 key m'' (equal.trans same)
    exact found.imp (Exists.imp fun _ both => ⟨both.1, trivial⟩) id
  refine ⟨fun a b => ⟨compares a b m rfl, fun room enough => ?_⟩,
    fun h key => ⟨?_, fun value => ?_, ?_⟩, concludes_equality compares⟩
  · have least := within a b m rfl (comparisonRoom m.heap.capacity + 1) (by omega)
    obtain ⟨more, rfl⟩ := Nat.exists_eq_add_of_le (show _ + 1 ≤ room from enough)
    have own := eqlWithin_roomy least env.depth
    rw [show comparisonRoom m.heap.capacity + 1 + env.depth =
      env.depth + comparisonRoom m.heap.capacity + 1 by omega] at own
    exact (eqlWithin_roomy least more).trans own.symm
  · exact (searches h key m rfl).bind fun _ _ => .pure trivial
  · exact concludes_codexInsert (searches h key _ rfl)
  · exact concludes_codexRemove (searches h key m rfl)

/-- Two books that are their own pages, and under each of them a codex that is its own value. -/
def knotObjects : List Object :=
  [.book #[.book ⟨0⟩], .book #[.book ⟨1⟩], .codex [(.book ⟨0⟩, .codex ⟨2⟩)],
    .codex [(.book ⟨1⟩, .codex ⟨3⟩)]]

def lockObjects : List Object := [.codex [(.codex ⟨0⟩, .ni)], .codex [(.codex ⟨1⟩, .ni)]]

theorem knots_grounded : (bare knotObjects).heap.Grounded := by
  -- A knot contains nothing but itself, and so no codex.
  have own : ∀ k, k = 0 ∨ k = 1 → ∀ v, (bare knotObjects).heap.Contains (.book ⟨k⟩) v →
      v = .book ⟨k⟩ := by
    intro k first v inside
    induction inside with
    | refl => rfl
    | tail _ part ih =>
      subst ih
      cases part with
      | page used member =>
        rw [bare_get] at used
        rcases first with rfl | rfl
        · cases used
          simpa using member
        · cases used
          simpa using member
  intro h entries used e member inside
  rw [bare_get] at used
  have there := List.mem_of_getElem? used
  simp only [knotObjects, List.mem_cons, Object.codex.injEq, reduceCtorEq, List.not_mem_nil,
    false_or, or_false] at there
  rcases there with rfl | rfl
  · cases List.mem_singleton.mp member
    cases own 0 (.inl rfl) _ inside
  · cases List.mem_singleton.mp member
    cases own 1 (.inr rfl) _ inside

theorem knots_unchanged (h : Handle) (f : Form)
    (used : (bare knotObjects).heap.get? h = some (.form f)) :
    (bare knotObjects).heap.change? h "==" = .ok none := by
  rw [bare_get] at used
  have there := List.mem_of_getElem? used
  simp [knotObjects] at there

/-- The knots are compared to the end, keys and values, and are equal. -/
theorem knots_compared : (bare knotObjects).heap.Grounded ∧ ∀ env,
    Settles env (bare knotObjects) (eql (.codex ⟨2⟩) (.codex ⟨3⟩)) (fun _ => True) ∧
    eql (.codex ⟨2⟩) (.codex ⟨3⟩) env (bare knotObjects) = .ok true (bare knotObjects) := by
  apply And.intro knots_grounded
  intro env
  obtain ⟨compares, _⟩ := eql_terminates knots_unchanged knots_grounded env
  obtain ⟨settles, roomy⟩ := compares (.codex ⟨2⟩) (.codex ⟨3⟩)
  apply And.intro settles
  rw [← roomy 85 (by decide)]
  rfl

/-- Whether one codex that is its own key has the key of another is the question that the two were
compared for. -/
theorem eqlWithin_locked {l r : Handle} (differ : l ≠ r)
    (left : m.heap.get? l = some (.codex [(.codex l, .ni)]))
    (right : m.heap.get? r = some (.codex [(.codex r, .ni)])) (room : Nat) :
    eqlWithin room [] (.codex l) (.codex r) env m = .error (.fatal .tooDeep) m := by
  induction room generalizing l r m with
  | zero => rfl
  | succ room ih =>
    have searched : ∀ pins, searchCodex (eqlWithin room []) r (.codex l) env (m.pin pins) =
        .error (.fatal .tooDeep) (m.pin pins) := by
      intro pins
      have read : codex r env (m.pin pins) = .ok _ (m.pin pins) := read_codex right
      refine (bind_ok read).trans (withPinned_error (bind_error ?_))
      exact ih differ.symm right left
    rw [eqlWithin, if_neg (by simpa using differ)]
    refine (bind_ok (read_codex left)).trans ((bind_ok (read_codex right)).trans ?_)
    rw [if_neg (by simp)]
    exact withPinned_error (bind_error (searched _))

/-- No room is enough for the locks, although there is no form. -/
theorem locks_never_compared : (∀ h f, (bare lockObjects).heap.get? h ≠ some (.form f)) ∧
    ∀ env room, eqlWithin room [] (.codex ⟨0⟩) (.codex ⟨1⟩) env (bare lockObjects) =
      .error (.fatal .tooDeep) (bare lockObjects) := by
  constructor
  · intro h f used
    rw [bare_get] at used
    have there := List.mem_of_getElem? used
    simp [lockObjects] at there
  · intro env room
    exact eqlWithin_locked (by decide) (bare_get ..) (bare_get ..) room

end Run

end JourneyMachine
