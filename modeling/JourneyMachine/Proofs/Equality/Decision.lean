import JourneyMachine.Proofs.Attributes.Lineage
import JourneyMachine.Proofs.Dispatch.Keywords
import JourneyMachine.Proofs.Equality.Bisimilarity

/-! Equality decides bisimilarity. A comparison assumes the pairs on its path to be equal: what it
finds equal is related up to these pairs, and a pair is taken off its own assumptions once its
round is borne out. What it finds different is different whatever was assumed. The path repeats no
pair of slots, so there is room for all of it. -/

namespace JourneyMachine

namespace Heap

variable {heap : Heap} {C : List (Handle × Handle)} {l r : Handle} {a b u v : Value}

/-- Identical, or a pair on the path. -/
def Assumed (heap : Heap) (C : List (Handle × Handle)) (u v : Value) : Prop :=
  heap.Refers u ∧ heap.Refers v ∧
    (u = v ∨ ∃ l r, (l, r) ∈ C ∧ u.handle? = some l ∧ v.handle? = some r)

/-- Found equal: related by rounds up to what is assumed, or assumed. -/
def Related (heap : Heap) (C : List (Handle × Handle)) (a b : Value) : Prop :=
  heap.Progress (heap.Assumed C) a b ∨ heap.Assumed C a b

/-- The pairs that are being compared, none of them twice. -/
structure Path (heap : Heap) (C : List (Handle × Handle)) : Prop where
  nodup : C.Nodup
  inside : ∀ p ∈ C, p.1.slot < heap.capacity ∧ p.2.slot < heap.capacity

theorem Path.length_le (path : heap.Path C) : C.length ≤ heap.capacity * heap.capacity := by
  let slots : Handle × Handle → Nat × Nat := fun p => (p.1.slot, p.2.slot)
  have injective : Function.Injective slots := by
    rintro ⟨⟨_⟩, ⟨_⟩⟩ ⟨⟨_⟩, ⟨_⟩⟩ same
    cases same
    rfl
  have nodup : (C.map slots).Nodup := path.nodup.map injective
  have sub : (C.map slots).toFinset ⊆ Finset.range heap.capacity ×ˢ Finset.range heap.capacity := by
    intro p member
    obtain ⟨q, there, rfl⟩ := List.mem_map.mp (List.mem_toFinset.mp member)
    simpa [slots] using path.inside q there
  calc C.length = (C.map slots).toFinset.card := by
        rw [List.toFinset_card_of_nodup nodup, List.length_map]
    _ ≤ (Finset.range heap.capacity ×ˢ Finset.range heap.capacity).card := Finset.card_le_card sub
    _ = heap.capacity * heap.capacity := by simp

theorem Path.cons {o o' : Object} (path : heap.Path C) (fresh : (l, r) ∉ C)
    (left : heap.get? l = some o) (right : heap.get? r = some o') : heap.Path ((l, r) :: C) where
  nodup := List.nodup_cons.mpr ⟨fresh, path.nodup⟩
  inside := List.forall_mem_cons.mpr ⟨⟨lt_capacity left, lt_capacity right⟩, path.inside⟩

/-- What is assumed on a longer path is the new pair or was assumed before. -/
theorem Assumed.cons {o o' : Object} (refersLeft : heap.Refers a) (refersRight : heap.Refers b)
    (left : a.handle? = some l) (right : b.handle? = some r) (used : heap.get? l = some o)
    (other : heap.get? r = some o') (assumed : heap.Assumed ((l, r) :: C) u v) :
    heap.Assumed C u v ∨ (u = a ∧ v = b) := by
  obtain ⟨first, second, same | ⟨l', r', member, one, two⟩⟩ := assumed
  · exact .inl ⟨first, second, .inl same⟩
  · rcases List.mem_cons.mp member with new | old
    · cases new
      exact .inr ⟨first.unique refersLeft one left used, second.unique refersRight two right other⟩
    · exact .inl ⟨first, second, .inr ⟨l', r', old, one, two⟩⟩

/-- A pair whose round is borne out on the path with the pair is related without it. -/
theorem Related.discharge {o o' : Object} (refersLeft : heap.Refers a) (refersRight : heap.Refers b)
    (left : a.handle? = some l) (right : b.handle? = some r) (used : heap.get? l = some o)
    (other : heap.get? r = some o') (alike : heap.Alike (heap.Related ((l, r) :: C)) a b) :
    heap.Related C a b :=
  .inl (Progress.discharge alike fun _ _ =>
    Assumed.cons refersLeft refersRight left right used other)

theorem Related.simple (simple : a.Simple) (similar : heap.Bisimilar a b) : heap.Related C a b :=
  .inl (Progress.discharge (similar.alike.shallow simple) fun _ _ => .inl)

theorem Plain.entry_refers (plain : heap.Plain) {h : Handle} {entries : List (Value × Value)}
    {e : Value × Value} (used : heap.get? h = some (.codex entries)) (member : e ∈ entries) :
    heap.Refers e.1 ∧ heap.Refers e.2 := by
  constructor
  · exact plain.closed h _ used _ (Object.links_entry member (by simp))
  · exact plain.closed h _ used _ (Object.links_entry member (by simp))

/-- No key of a codex is found twice. -/
theorem Plain.entry_unique (plain : heap.Plain) {h : Handle} {entries : List (Value × Value)}
    {e f : Value × Value} (used : heap.get? h = some (.codex entries)) (first : e ∈ entries)
    (second : f ∈ entries) (similar : heap.Bisimilar e.1 f.1) : e = f := by
  by_contra differ
  have symmetric : Std.Symm fun e f : Value × Value => ¬ heap.Bisimilar e.1 f.1 :=
    ⟨fun e f different other => different (other.symm plain)⟩
  exact (plain.distinct h entries used).forall first second differ similar

theorem Plain.changeIn? (plain : heap.Plain) (k : Handle) : heap.changeIn? "==" k = none := by
  rw [Heap.changeIn?, Option.bind_eq_none_iff]
  intro f form
  obtain ⟨o, used, form⟩ := Option.bind_eq_some_iff.mp form
  cases o <;> cases form
  rw [named?, List.find?_eq_none]
  intro j member same
  obtain ⟨journey, found, same⟩ := (Option.any_eq_true ..).mp same
  obtain ⟨o, there, journey⟩ := Option.bind_eq_some_iff.mp found
  cases o <;> cases journey
  exact plain.undeclared k f used j member _ there (of_decide_eq_true same)

/-- The search for `==` goes through all ancestors of a form, and none of them declares it. -/
theorem Plain.unchanged (plain : heap.Plain) {h : Handle} (refers : heap.Refers (.form h)) :
    heap.change? h "==" = .ok none := by
  have acyclic : Acyclic heap.Parent (.form h) := fun v _ => plain.acyclic v
  have bounded : ∀ k ∈ [h], heap.Bounded heap.chainRoom k := by simp [Bounded.room acyclic]
  obtain ⟨order, lineage⟩ := exists_lineage _ [h] bounded
  have own : ∀ k ∈ order, heap.ownChange? "==" k = .ok (heap.changeIn? "==" k) := by
    intro k member
    have descends : heap.Descends h k := by simpa using lineage.mem_iff.mp member
    exact (plain.closed.whole refers descends).ownChange?
  calc heap.change? h "==" = order.findSomeM? (heap.ownChange? "==") :=
        (climbs_change "==").root lineage acyclic
    _ = .ok (order.findSome? (heap.changeIn? "==")) := findSomeM?_ok own
    _ = .ok none := by simp [plain.changeIn?]

theorem Related.bisimilar (closed : heap.Closed) (related : heap.Related [] a b) :
    heap.Bisimilar a b := by
  have identity : ∀ u v, heap.Assumed [] u v → u = v ∧ heap.Refers u := by
    rintro u v ⟨refers, _, same | ⟨_, _, member, _⟩⟩
    · exact ⟨same, refers⟩
    · simp at member
  rcases related with progress | assumed
  · exact progress.bisimilar closed identity
  · obtain ⟨rfl, refers⟩ := identity a b assumed
    exact .refl closed refers

end Heap

namespace Run

/-- A computation that leaves the machine as it is, and what its answers mean. -/
def Answers (env : Env) (m : Machine) (c : Run Bool) (yes no : Prop) : Prop :=
  ∃ same, c env m = .ok same m ∧ (same = true → yes) ∧ (same = false → no)

variable {env : Env} {m : Machine} {c : Run Bool} {yes no : Prop} {h : Handle}

section Loops

variable {equal : Value → Value → Run Bool} {entries : List (Value × Value)} {key : Value}

theorem Answers.pure {same : Bool} (right : same = true → yes) (wrong : same = false → no) :
    Answers env m (pure same) yes no :=
  ⟨same, rfl, right, wrong⟩

theorem Answers.imp {yes' no' : Prop} (answers : Answers env m c yes no) (right : yes → yes')
    (wrong : no → no') : Answers env m c yes' no' := by
  obtain ⟨same, done, first, second⟩ := answers
  exact ⟨same, done, right ∘ first, wrong ∘ second⟩

theorem Answers.after {α : Type} {first : Run α} {next : α → Run Bool} {a : α}
    (done : first env m = .ok a m) (answers : Answers env m (next a) yes no) :
    Answers env m (first >>= next) yes no := by
  obtain ⟨same, ended, meaning⟩ := answers
  exact ⟨same, (bind_ok done).trans ended, meaning⟩

theorem Answers.withPinned {values : List Value} (answers : Answers env (m.pin values) c yes no) :
    Answers env m (withPinned values c) yes no := by
  obtain ⟨same, done, meaning⟩ := answers
  exact ⟨same, (withPinned_eq_ok).mpr ⟨_, done, m.unpin_pin values⟩, meaning⟩

theorem answers_pages {pairs : List (Value × Value)} {yes no : Value × Value → Prop}
    (each : ∀ p ∈ pairs, Answers env m (equal p.1 p.2) (yes p) (no p)) :
    Answers env m (equalPages equal pairs) (∀ p ∈ pairs, yes p) (∃ p ∈ pairs, no p) := by
  induction pairs with
  | nil => exact .pure (by simp) (by simp)
  | cons p rest ih =>
    obtain ⟨a, b⟩ := p
    obtain ⟨same, done, right, wrong⟩ := each (a, b) (List.mem_cons_self ..)
    cases same with
    | true =>
      obtain ⟨last, ended, all, some⟩ := ih fun q member => each q (List.mem_cons_of_mem _ member)
      refine ⟨last, (bind_ok done).trans ended, fun ends => ?_, fun ends => ?_⟩
      · exact List.forall_mem_cons.mpr ⟨right rfl, all ends⟩
      · obtain ⟨q, member, differs⟩ := some ends
        exact ⟨q, List.mem_cons_of_mem _ member, differs⟩
    | false => exact ⟨false, bind_ok done, by simp, fun _ => ⟨(a, b), by simp, wrong rfl⟩⟩

theorem findKey_answers {yes no : Value × Value → Prop} (position : Nat)
    (each : ∀ e ∈ entries, Answers env m (equal e.1 key) (yes e) (no e)) :
    ∃ found, findKey? equal key position entries env m = .ok found m ∧
      (found = none → ∀ e ∈ entries, no e) ∧
      ∀ i v, found = some (i, v) → ∃ e ∈ entries, e.2 = v ∧ yes e := by
  induction entries generalizing position with
  | nil => exact ⟨none, rfl, by simp, by simp⟩
  | cons e rest ih =>
    obtain ⟨k, v⟩ := e
    obtain ⟨same, done, right, wrong⟩ := each (k, v) (List.mem_cons_self ..)
    cases same with
    | true =>
      refine ⟨some (position, v), bind_ok done, by simp, fun i w found => ?_⟩
      cases found
      exact ⟨(k, v), by simp, rfl, right rfl⟩
    | false =>
      obtain ⟨found, ended, absent, present⟩ :=
        ih (position + 1) fun e member => each e (List.mem_cons_of_mem _ member)
      refine ⟨found, (bind_ok done).trans ended, fun none => ?_, fun i w some => ?_⟩
      · exact List.forall_mem_cons.mpr ⟨wrong rfl, absent none⟩
      · obtain ⟨e, member, rest⟩ := present i w some
        exact ⟨e, List.mem_cons_of_mem _ member, rest⟩

theorem answers_entries {lookup : Value → Run (Option (Nat × Value))}
    {yes no : Value × Value → Prop}
    (each : ∀ e ∈ entries, ∃ found, lookup e.1 env m = .ok found m ∧ (found = none → no e) ∧
      ∀ i v, found = some (i, v) → Answers env m (equal e.2 v) (yes e) (no e)) :
    Answers env m (equalEntries equal lookup entries) (∀ e ∈ entries, yes e)
      (∃ e ∈ entries, no e) := by
  induction entries with
  | nil => exact .pure (by simp) (by simp)
  | cons e rest ih =>
    obtain ⟨k, v⟩ := e
    obtain ⟨found, looked, absent, present⟩ := each (k, v) (List.mem_cons_self ..)
    cases found with
    | none => exact ⟨false, bind_ok looked, by simp, fun _ => ⟨(k, v), by simp, absent rfl⟩⟩
    | some place =>
      obtain ⟨i, w⟩ := place
      obtain ⟨same, done, right, wrong⟩ := present i w rfl
      cases same with
      | true =>
        obtain ⟨last, ended, all, some⟩ := ih fun q member => each q (List.mem_cons_of_mem _ member)
        refine ⟨last, (bind_ok looked).trans ((bind_ok done).trans ended), fun ends => ?_,
          fun ends => ?_⟩
        · exact List.forall_mem_cons.mpr ⟨right rfl, all ends⟩
        · obtain ⟨q, member, differs⟩ := some ends
          exact ⟨q, List.mem_cons_of_mem _ member, differs⟩
      | false =>
        exact ⟨false, (bind_ok looked).trans (bind_ok done), by simp,
          fun _ => ⟨(k, v), by simp, wrong rfl⟩⟩

end Loops

section Reading

/-- A search leaves the machine as it is and finds an entry if there is one. -/
theorem searchCodex_answers {equal : Value → Value → Run Bool} {entries : List (Value × Value)}
    {key : Value} {yes no : Value × Value → Prop} (used : m.heap.get? h = some (.codex entries))
    (each : ∀ e ∈ entries, ∀ m', m'.heap = m.heap →
      Answers env m' (equal e.1 key) (yes e) (no e)) :
    ∃ found, searchCodex equal h key env m = .ok found m ∧ (found = none → ∀ e ∈ entries, no e) ∧
      ∀ i v, found = some (i, v) → ∃ e ∈ entries, e.2 = v ∧ yes e := by
  obtain ⟨found, done, meaning⟩ := findKey_answers (m := m.pin
    ((entries.flatMap fun e => [e.1, e.2]) ++ [key])) 0 fun e member => each e member _ rfl
  refine ⟨found, (bind_ok (read_codex used)).trans ?_, meaning⟩
  exact (withPinned_eq_ok).mpr ⟨_, done, m.unpin_pin _⟩

end Reading

section Comparing

variable {C : List (Handle × Handle)} {a b k : Value} {room : Nat}

/-- Values without pages or entries are compared at once. -/
theorem answers_identity (bare : ¬ a.Structured) :
    Answers env m (pure (decide (a = b))) (a = b) (¬ m.heap.Bisimilar a b) := by
  apply Answers.pure of_decide_eq_true
  intro differ similar
  apply of_decide_eq_false differ
  cases similar.alike with
  | identical => rfl
  | text | book | codex => exact (bare trivial).elim

theorem answers_texts {l r : Handle} (left : m.heap.Holds .text l) (right : m.heap.Holds .text r) :
    Answers env m (eqlWithin (room + 1) C (.text l) (.text r)) (m.heap.Bisimilar (.text l) (.text r))
      (¬ m.heap.Bisimilar (.text l) (.text r)) := by
  obtain ⟨o, used, genus⟩ := left
  obtain ⟨o', other, genus'⟩ := right
  cases o <;> try contradiction
  cases o' <;> try contradiction
  rename_i first second
  simp only [eqlWithin]
  split
  · rename_i same
    subst same
    exact .pure (fun _ => Heap.Alike.bisimilar (.text used used)) (by simp)
  · refine ⟨decide (first = second), ?_, fun same => ?_, fun differ similar => ?_⟩
    · exact (bind_ok (read_text used)).trans (bind_ok (read_text other))
    · cases of_decide_eq_true same
      exact Heap.Alike.bisimilar (.text used other)
    · apply of_decide_eq_false differ
      cases similar.alike with
      | identical bare => exact (bare trivial).elim
      | text one two =>
        cases one.symm.trans used
        cases two.symm.trans other
        rfl

/-- Keys are compared without looking inside. -/
theorem answers_simple (simple : k.Simple) (refers : m.heap.Refers k) (live : m.heap.Refers a)
    (closed : m.heap.Closed) :
    Answers env m (eqlWithin (room + 1) C k a) (m.heap.Bisimilar k a)
      (¬ m.heap.Bisimilar k a) := by
  have inline : ¬ k.Structured → Answers env m (pure (decide (k = a))) (m.heap.Bisimilar k a)
      (¬ m.heap.Bisimilar k a) := by
    intro bare
    apply (answers_identity bare).imp _ id
    rintro rfl
    exact .refl closed refers
  cases k with
  | ni | veracity | numeral =>
    simp only [eqlWithin]
    exact inline id
  | text l =>
    cases a with
    | text r => exact answers_texts ((Heap.refers_text).mp refers) ((Heap.refers_text).mp live)
    | _ =>
      refine ⟨false, rfl, by simp, fun _ similar => ?_⟩
      cases similar.alike
  | _ => exact simple.elim

/-- Comparing on a path means what it should, in every machine with that heap. -/
def Compares (env : Env) (heap : Heap) (room : Nat) (C : List (Handle × Handle)) : Prop :=
  ∀ m a b, m.heap = heap → heap.Refers a → heap.Refers b →
    Answers env m (eqlWithin room C a b) (heap.Related C a b) (¬ heap.Bisimilar a b)

theorem answers_books {l r : Handle} (closed : m.heap.Closed)
    (left : m.heap.Refers (.book l)) (right : m.heap.Refers (.book r))
    (inner : ∀ o o', m.heap.get? l = some o → m.heap.get? r = some o' → (l, r) ∉ C →
      Compares env m.heap room ((l, r) :: C)) :
    Answers env m (eqlWithin (room + 1) C (.book l) (.book r))
      (m.heap.Related C (.book l) (.book r)) (¬ m.heap.Bisimilar (.book l) (.book r)) := by
  obtain ⟨o, used, genus⟩ := (Heap.refers_book).mp left
  obtain ⟨o', other, genus'⟩ := (Heap.refers_book).mp right
  cases o <;> try contradiction
  cases o' <;> try contradiction
  rename_i pages pages'
  -- Books that are alike have been seen to be, page by page.
  have inverted : m.heap.Bisimilar (.book l) (.book r) →
      List.Forall₂ m.heap.Bisimilar pages.toList pages'.toList := by
    intro similar
    cases similar.alike with
    | identical bare => exact (bare trivial).elim
    | book one two both =>
      cases one.symm.trans used
      cases two.symm.trans other
      exact both
  simp only [eqlWithin]
  split
  · rename_i known
    refine .pure (fun _ => .inr ⟨left, right, ?_⟩) (by simp)
    rcases known with rfl | member
    · exact .inl rfl
    · exact .inr ⟨l, r, member, rfl, rfl⟩
  · rename_i unknown
    have fresh : (l, r) ∉ C := fun member => unknown (.inr member)
    apply Answers.after (read_book used)
    apply Answers.after (read_book other)
    split
    · rename_i sizes
      refine .pure (by simp) fun _ similar => sizes ?_
      simpa using (inverted similar).length_eq
    · rename_i sizes
      have lengths : pages.toList.length = pages'.toList.length := by simpa using sizes
      have each : ∀ p ∈ pages.toList.zip pages'.toList,
          Answers env (m.pin (pages.toList ++ pages'.toList))
            (eqlWithin room ((l, r) :: C) p.1 p.2) (m.heap.Related ((l, r) :: C) p.1 p.2)
            (¬ m.heap.Bisimilar p.1 p.2) := by
        intro p member
        have both := List.of_mem_zip (show (p.1, p.2) ∈ _ from member)
        exact inner _ _ used other fresh (m.pin _) p.1 p.2 rfl (closed l _ used _ both.1)
          (closed r _ other _ both.2)
      apply Answers.withPinned
      apply (answers_pages each).imp
      · intro related
        apply Heap.Related.discharge left right rfl rfl used other
        apply Heap.Alike.book used other
        exact List.forall₂_iff_zip.mpr ⟨lengths, fun {a b} member => related (a, b) member⟩
      · rintro ⟨p, member, differ⟩ similar
        exact differ (List.forall₂_zip (inverted similar) member)

/-- An entry of a codex is compared with the one of its key in another codex. -/
theorem answers_entry {r : Handle} {others : List (Value × Value)} {e : Value × Value}
    (plain : m.heap.Plain) (used : m.heap.get? r = some (.codex others)) (simple : e.1.Simple)
    (refers : m.heap.Refers e.1 ∧ m.heap.Refers e.2)
    (inner : Compares env m.heap (room + 1) C) :
    ∃ found, searchCodex (eqlWithin (room + 1) []) r e.1 env m = .ok found m ∧
      (found = none → ¬ ∃ f ∈ others, m.heap.Bisimilar e.1 f.1 ∧ m.heap.Bisimilar e.2 f.2) ∧
      ∀ i v, found = some (i, v) → Answers env m (eqlWithin (room + 1) C e.2 v)
        (∃ f ∈ others, m.heap.Related C e.1 f.1 ∧ m.heap.Related C e.2 f.2)
        (¬ ∃ f ∈ others, m.heap.Bisimilar e.1 f.1 ∧ m.heap.Bisimilar e.2 f.2) := by
  have keys : ∀ f ∈ others, ∀ m', m'.heap = m.heap → Answers env m'
      (eqlWithin (room + 1) [] f.1 e.1) (m.heap.Bisimilar f.1 e.1) (¬ m.heap.Bisimilar f.1 e.1) := by
    intro f member m' same
    rw [← same] at plain used refers ⊢
    exact answers_simple (plain.simple r _ used f member) (plain.entry_refers used member).1
      refers.1 plain.closed
  obtain ⟨found, done, absent, present⟩ := searchCodex_answers used keys
  refine ⟨found, done, ?_, ?_⟩
  · rintro missing ⟨f, member, key, _⟩
    exact absent missing f member (key.symm plain)
  · rintro i v some
    obtain ⟨f, member, rfl, key⟩ := present i v some
    apply (inner m e.2 f.2 rfl refers.2 (plain.entry_refers used member).2).imp
    · intro value
      exact ⟨f, member, .simple simple (key.symm plain), value⟩
    · rintro differ ⟨f', member', key', value'⟩
      have same : f = f' := plain.entry_unique used member member' (key.trans key')
      rw [← same] at value'
      exact differ value'

theorem answers_codices {l r : Handle} (plain : m.heap.Plain)
    (left : m.heap.Refers (.codex l)) (right : m.heap.Refers (.codex r))
    (inner : ∀ o o', m.heap.get? l = some o → m.heap.get? r = some o' → (l, r) ∉ C →
      0 < room ∧ Compares env m.heap room ((l, r) :: C)) :
    Answers env m (eqlWithin (room + 1) C (.codex l) (.codex r))
      (m.heap.Related C (.codex l) (.codex r)) (¬ m.heap.Bisimilar (.codex l) (.codex r)) := by
  obtain ⟨o, used, genus⟩ := (Heap.refers_codex).mp left
  obtain ⟨o', other, genus'⟩ := (Heap.refers_codex).mp right
  cases o <;> try contradiction
  cases o' <;> try contradiction
  rename_i entries entries'
  -- Codices that are alike have as many entries, and each entry has its like.
  have inverted : m.heap.Bisimilar (.codex l) (.codex r) → entries.length = entries'.length ∧
      ∀ e ∈ entries, ∃ f ∈ entries', m.heap.Bisimilar e.1 f.1 ∧ m.heap.Bisimilar e.2 f.2 := by
    intro similar
    cases similar.alike with
    | identical bare => exact (bare trivial).elim
    | codex one two size both =>
      cases one.symm.trans used
      cases two.symm.trans other
      exact ⟨size, both⟩
  rw [eqlWithin]
  split
  · rename_i known
    refine .pure (fun _ => .inr ⟨left, right, ?_⟩) (by simp)
    rcases known with rfl | member
    · exact .inl rfl
    · exact .inr ⟨l, r, member, rfl, rfl⟩
  · rename_i unknown
    have fresh : (l, r) ∉ C := fun member => unknown (.inr member)
    apply Answers.after (read_codex used)
    apply Answers.after (read_codex other)
    split
    · rename_i sizes
      exact .pure (by simp) fun _ similar => sizes (inverted similar).1
    · rename_i sizes
      obtain ⟨positive, compares⟩ := inner _ _ used other fresh
      obtain ⟨room, rfl⟩ := Nat.exists_eq_add_of_lt positive
      rw [Nat.zero_add] at compares ⊢
      have each : ∀ e ∈ entries, _ := fun e member =>
        answers_entry (m := m.pin ((entries.flatMap fun e => [e.1, e.2]) ++ [.codex r])) plain other
          (plain.simple l _ used e member) (plain.entry_refers used member) compares
      apply Answers.withPinned
      apply (answers_entries each).imp
      · intro related
        apply Heap.Related.discharge left right rfl rfl used other
        exact Heap.Alike.codex used other (not_not.mp sizes) related
      · rintro ⟨e, member, differ⟩ similar
        exact differ ((inverted similar).2 e member)

/-- An imitation is compared by identity where no form changes that. -/
theorem answers_imitation {h : Handle} (plain : m.heap.Plain)
    (refers : m.heap.Refers (.imitation h)) :
    Answers env m (eqlWithin (room + 1) C (.imitation h) b) (.imitation h = b)
      (¬ m.heap.Bisimilar (.imitation h) b) := by
  obtain ⟨o, used, genus⟩ := (Heap.refers_imitation).mp refers
  cases o <;> try contradiction
  rename_i i
  have unchanged : m.heap.changeOf? (.imitation h) "==" = .ok none := by
    simp only [Heap.changeOf?, Heap.imitation, Heap.read, used, Object.imitation?]
    exact plain.unchanged (plain.closed h _ used _ (by simp [Object.links]))
  have looked : changeOf? (.imitation h) "==" env m = .ok none m :=
    (onHeap_eq_ok).mpr ⟨unchanged, rfl⟩
  have called : callChange? (.imitation h) "==" [.imitation h, b] env m = .ok none m :=
    bind_ok looked
  simp only [eqlWithin]
  exact Answers.after called (answers_identity id)

/-- On every path there is room for what is left to compare. -/
theorem compares {heap : Heap} (plain : heap.Plain) (room : Nat) (C : List (Handle × Handle))
    (path : heap.Path C) (enough : heap.capacity * heap.capacity < room + C.length) :
    Compares env heap room C := by
  -- On the rounds: a pair that is not on the path makes it longer, and a path has an end.
  induction room generalizing C with
  | zero =>
    have := path.length_le
    omega
  | succ room ih =>
    rintro m a b rfl left right
    have inner : ∀ l r o o', m.heap.get? l = some o → m.heap.get? r = some o' → (l, r) ∉ C →
        0 < room ∧ Compares env m.heap room ((l, r) :: C) := by
      intro l r o o' used other fresh
      have longer := path.cons fresh used other
      have bound := longer.length_le
      simp only [List.length_cons] at bound
      refine ⟨by omega, ih _ longer ?_⟩
      simp only [List.length_cons]
      omega
    have shallow : a.Simple → Answers env m (eqlWithin (room + 1) C a b) (m.heap.Related C a b)
        (¬ m.heap.Bisimilar a b) := fun simple =>
      (answers_simple simple left right plain.closed).imp (.simple simple) id
    have same : a = b → m.heap.Related C a b := fun equal => .inr ⟨left, right, .inl equal⟩
    cases a with
    | ni | veracity | numeral | text => exact shallow trivial
    | imitation h => exact (answers_imitation plain left).imp same id
    | form | journey | other =>
      simp only [eqlWithin]
      exact (answers_identity id).imp same id
    | book l =>
      cases b with
      | book r =>
        exact answers_books plain.closed left right fun o o' used other fresh =>
          (inner l r o o' used other fresh).2
      | _ =>
        refine ⟨false, rfl, by simp, fun _ similar => ?_⟩
        cases similar.alike
    | codex l =>
      cases b with
      | codex r => exact answers_codices plain left right (inner l r)
      | _ =>
        refine ⟨false, rfl, by simp, fun _ similar => ?_⟩
        cases similar.alike

end Comparing

/-- In a plain heap equality gives an answer for all values that refer and leaves the machine as it
is. It finds equal what is bisimilar, and so is an equivalence. -/
theorem eql_decides_bisimilarity (plain : m.heap.Plain) (env : Env) :
    (∀ a b, m.heap.Refers a → m.heap.Refers b →
      ∃ same, eql a b env m = .ok same m ∧ (same = true ↔ m.heap.Bisimilar a b)) ∧
    Equivalence fun a b : { v // m.heap.Refers v } => eql a.1 b.1 env m = .ok true m := by
  have path : m.heap.Path [] := ⟨by simp, by simp⟩
  have decides : ∀ a b, m.heap.Refers a → m.heap.Refers b →
      ∃ same, eql a b env m = .ok same m ∧ (same = true ↔ m.heap.Bisimilar a b) := by
    intro a b left right
    obtain ⟨same, done, yes, no⟩ :=
      compares plain (env.depth + comparisonRoom m.heap.capacity + 1) [] path
        (by simp only [comparisonRoom, List.length_nil]; omega) m a b rfl left right
    refine ⟨same, done, fun equal => (yes equal).bisimilar plain.closed, fun similar => ?_⟩
    by_contra differ
    exact no (Bool.eq_false_of_not_eq_true differ) similar
  have equal_iff : ∀ a b : { v // m.heap.Refers v },
      eql a.1 b.1 env m = .ok true m ↔ m.heap.Bisimilar a.1 b.1 := by
    intro a b
    obtain ⟨same, done, meaning⟩ := decides a.1 b.1 a.2 b.2
    rw [done, ← meaning]
    simp
  refine ⟨decides, ⟨fun a => ?_, fun {a b} => ?_, fun {a b c} => ?_⟩⟩
  · exact (equal_iff a a).mpr (.refl plain.closed a.2)
  · simp only [equal_iff]
    exact .symm plain
  · simp only [equal_iff]
    exact .trans

/-- A form that is its own parent, and an imitation of it. -/
def circleObjects : List Object :=
  [.form { name := "Loop", parents := [⟨0⟩] }, .imitation { form := ⟨0⟩ }]

theorem circle_climbed (room : Nat) :
    (bare circleObjects).heap.changeWithin "==" room ⟨0⟩ = .error .tooDeep := by
  induction room with
  | zero => rfl
  | succ room ih =>
    have own : (bare circleObjects).heap.ownChange? "==" ⟨0⟩ = .ok none := rfl
    have above : (bare circleObjects).heap.parents ⟨0⟩ = [⟨0⟩] := rfl
    rw [Heap.climbs_change, own, above]
    show [⟨0⟩].findSomeM? ((bare circleObjects).heap.changeWithin "==" room) = _
    rw [List.findSomeM?_cons, ih]
    rfl

/-- Where a form is its own ancestor, the imitation of it is compared for ever, although nothing
declares any change and there is no codex: no room is enough for the search for `==`. -/
theorem circle_never_compared : (bare circleObjects).heap.Closed ∧
    (bare circleObjects).heap.Refers (.imitation ⟨1⟩) ∧
    (∀ h f, (bare circleObjects).heap.get? h = some (.form f) → f.changes = []) ∧
    (∀ h entries, (bare circleObjects).heap.get? h ≠ some (.codex entries)) ∧
    (∀ room, (bare circleObjects).heap.changeWithin "==" room ⟨0⟩ = .error .tooDeep) ∧
    ∀ env b, eql (.imitation ⟨1⟩) b env (bare circleObjects) =
      .error (.fatal .tooDeep) (bare circleObjects) := by
  refine ⟨bare_heap_closed (by decide), bare_refers (by decide), ?_, ?_, circle_climbed, ?_⟩
  · intro h f used
    rw [bare_get] at used
    have there := List.mem_of_getElem? used
    simp only [circleObjects, List.mem_cons, Object.form.injEq, reduceCtorEq, List.not_mem_nil,
      or_false] at there
    rw [there]
  · intro h entries used
    rw [bare_get] at used
    have there := List.mem_of_getElem? used
    simp [circleObjects] at there
  · intro env b
    have climbed : (bare circleObjects).heap.changeOf? (.imitation ⟨1⟩) "==" =
        .error .tooDeep := circle_climbed _
    have called : callChange? (.imitation ⟨1⟩) "==" [.imitation ⟨1⟩, b] env (bare circleObjects) =
        .error (.fatal .tooDeep) (bare circleObjects) := by
      apply bind_error
      rw [changeOf?, onHeap, climbed]
    show eqlWithin (env.depth + comparisonRoom (bare circleObjects).heap.capacity + 1) []
      (.imitation ⟨1⟩) b env (bare circleObjects) = _
    simp only [eqlWithin]
    exact bind_error called

/-- A book that contains itself, two books that contain each other, two codices of these books, whose
keys are the same in another order, and an imitation of a form that inherits a change. -/
def ringObjects : List Object :=
  [.book #[.numeral 1, .book ⟨0⟩], .book #[.numeral 1, .book ⟨2⟩], .book #[.numeral 1, .book ⟨1⟩],
    .text "ring", .text "ring", .codex [(.text ⟨3⟩, .book ⟨0⟩), (.numeral 1, .ni)],
    .codex [(.numeral 1, .ni), (.text ⟨4⟩, .book ⟨1⟩)], .journey { name := "+" },
    .form { name := "Metal", changes := [⟨7⟩] }, .form { name := "Ring", parents := [⟨8⟩] },
    .imitation { form := ⟨9⟩ }]

def ringPairs : List (Value × Value) :=
  [(.ni, .ni), (.numeral 1, .numeral 1), (.text ⟨3⟩, .text ⟨4⟩), (.book ⟨0⟩, .book ⟨1⟩),
    (.book ⟨0⟩, .book ⟨2⟩), (.codex ⟨5⟩, .codex ⟨6⟩), (.imitation ⟨10⟩, .imitation ⟨10⟩)]

theorem rings_bisimulation : (bare ringObjects).heap.Bisimulation fun a b => (a, b) ∈ ringPairs := by
  intro a b member
  simp only [ringPairs, List.mem_cons, Prod.mk.injEq, List.not_mem_nil, or_false] at member
  rcases member with
    ⟨rfl, rfl⟩ | ⟨rfl, rfl⟩ | ⟨rfl, rfl⟩ | ⟨rfl, rfl⟩ | ⟨rfl, rfl⟩ | ⟨rfl, rfl⟩ | ⟨rfl, rfl⟩
  · exact .identical id
  · exact .identical id
  · exact .text (bare_get ..) (bare_get ..)
  · exact .book (bare_get ..) (bare_get ..) (by simp [ringPairs])
  · exact .book (bare_get ..) (bare_get ..) (by simp [ringPairs])
  · exact .codex (bare_get ..) (bare_get ..) rfl (by simp [ringPairs])
  · exact .identical id

theorem rings_plain : (bare ringObjects).heap.Plain where
  closed := bare_heap_closed (by decide)
  undeclared := by
    have all : ∀ f, .form f ∈ ringObjects → ∀ k ∈ f.changes,
        ∀ o ∈ ringObjects[k.slot]?, ∀ j ∈ o.journey?, j.name ≠ "==" := by
      simp [ringObjects, Object.journey?]
    intro h f used k member j there
    rw [bare_get] at used there
    exact all f (List.mem_of_getElem? used) k member _ there j rfl
  acyclic v := bare_acyclic v (by decide) v .refl
  simple h entries used e inside := by
    have all : ∀ entries, .codex entries ∈ ringObjects → ∀ e ∈ entries, e.1.Simple := by
      simp only [ringObjects, List.mem_cons, List.not_mem_nil, or_false, reduceCtorEq, false_or]
      rintro _ (⟨⟨⟩⟩ | ⟨⟨⟩⟩) <;> simp only [List.forall_mem_cons, Value.Simple] <;> simp
    rw [bare_get] at used
    exact all entries (List.mem_of_getElem? used) e inside
  distinct h entries used := by
    have apart : ∀ (heap : Heap) t n, ¬ heap.Bisimilar (.text t) (.numeral n) ∧
        ¬ heap.Bisimilar (.numeral n) (.text t) := by
      intro heap t n
      constructor <;>
      · intro similar
        cases similar.alike
    have all : ∀ heap : Heap, ∀ entries, .codex entries ∈ ringObjects →
        entries.Pairwise fun e f => ¬ heap.Bisimilar e.1 f.1 := by
      simp [ringObjects, apart]
    rw [bare_get] at used
    exact all _ entries (List.mem_of_getElem? used)

/-- Different ways round the rings are equal, and so are the codices; a book is no codex. The
imitation is equal to itself. -/
theorem rings_compared : (bare ringObjects).heap.Plain ∧ ∀ env,
    eql (.book ⟨0⟩) (.book ⟨1⟩) env (bare ringObjects) = .ok true (bare ringObjects) ∧
    eql (.codex ⟨5⟩) (.codex ⟨6⟩) env (bare ringObjects) = .ok true (bare ringObjects) ∧
    eql (.imitation ⟨10⟩) (.imitation ⟨10⟩) env (bare ringObjects) = .ok true (bare ringObjects) ∧
    eql (.book ⟨0⟩) (.codex ⟨5⟩) env (bare ringObjects) = .ok false (bare ringObjects) := by
  refine ⟨rings_plain, fun env => ?_⟩
  obtain ⟨decides, _⟩ := eql_decides_bisimilarity rings_plain env
  have live : ∀ v ∈ [Value.book ⟨0⟩, .book ⟨1⟩, .codex ⟨5⟩, .codex ⟨6⟩, .imitation ⟨10⟩],
      (bare ringObjects).heap.Refers v := by
    intro v member
    have there : ∀ v ∈ [Value.book ⟨0⟩, .book ⟨1⟩, .codex ⟨5⟩, .codex ⟨6⟩, .imitation ⟨10⟩],
        ∀ h ∈ v.handle?, ∃ o ∈ ringObjects[h.slot]?, o.genus = v.genus := by decide
    exact bare_refers (there v member)
  have equal : ∀ a b, (bare ringObjects).heap.Refers a → (bare ringObjects).heap.Refers b →
      (a, b) ∈ ringPairs → eql a b env (bare ringObjects) = .ok true (bare ringObjects) := by
    intro a b left right member
    obtain ⟨same, done, meaning⟩ := decides a b left right
    rw [done, meaning.mpr ⟨_, rings_bisimulation, member⟩]
  refine ⟨?_, ?_, ?_, ?_⟩
  · exact equal _ _ (live _ (by simp)) (live _ (by simp)) (by simp [ringPairs])
  · exact equal _ _ (live _ (by simp)) (live _ (by simp)) (by simp [ringPairs])
  · exact equal _ _ (live _ (by simp)) (live _ (by simp)) (by simp [ringPairs])
  · obtain ⟨same, done, meaning⟩ := decides _ _ (live (.book ⟨0⟩) (by simp))
      (live (.codex ⟨5⟩) (by simp))
    cases same with
    | false => exact done
    | true => cases (meaning.mp rfl).alike

end Run

end JourneyMachine
