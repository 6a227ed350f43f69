import JourneyMachine.Machine.Interrupts
import JourneyMachine.Proofs.Containers.Throws
import JourneyMachine.Proofs.Equality.Decision

/-! A codex is a map in the order of insertion. Its keys are known by their content if they are texts
and by themselves otherwise. A codex represents a list of such keys with values, no key twice; the
operations on the codex are the operations on the list. -/

namespace JourneyMachine

/-- What a key is known by. -/
inductive Key where
  | spelled (content : String)
  | itself (v : Value)
deriving DecidableEq

abbrev Dictionary := List (Key × Value)

namespace Dictionary

variable {d before after : Dictionary} {k l : Key} {v w : Value}

def keys (d : Dictionary) : List Key := d.map (·.1)

def find? (d : Dictionary) (k : Key) : Option Value := (List.find? (·.1 = k) d).map (·.2)

/-- Replaces the value of a key that is there; a new key comes last. -/
def assign (d : Dictionary) (k : Key) (v : Value) : Dictionary :=
  if k ∈ d.keys then d.map fun e => if e.1 = k then (k, v) else e else d ++ [(k, v)]

def remove (d : Dictionary) (k : Key) : Dictionary := d.filter (·.1 ≠ k)

theorem keys_append : (before ++ after).keys = before.keys ++ after.keys := List.map_append

theorem ne_of_absent (absent : k ∉ d.keys) {e : Key × Value} (member : e ∈ d) : e.1 ≠ k := by
  rintro rfl
  exact absent (List.mem_map.mpr ⟨e, member, rfl⟩)

theorem keys_assign : (d.assign k v).keys = if k ∈ d.keys then d.keys else d.keys ++ [k] := by
  unfold assign
  split
  · simp only [keys, List.map_map]
    apply List.map_congr_left
    intro e _
    by_cases same : e.1 = k <;> simp [same]
  · rw [keys_append]
    rfl

theorem nodup_assign (nodup : d.keys.Nodup) : (d.assign k v).keys.Nodup := by
  rw [keys_assign]
  split
  · exact nodup
  · rename_i absent
    rw [List.nodup_append]
    refine ⟨nodup, List.nodup_singleton k, fun l member other last same => ?_⟩
    rw [List.mem_singleton.mp last] at same
    exact absent (same ▸ member)

theorem nodup_remove (nodup : d.keys.Nodup) : (d.remove k).keys.Nodup :=
  (List.Sublist.map _ List.filter_sublist).nodup nodup

/-- A key is not there, or there is a first place for it. -/
theorem split_at (d : Dictionary) (k : Key) : k ∉ d.keys ∨
    ∃ (before after : Dictionary) (v : Value), d = before ++ (k, v) :: after ∧ k ∉ before.keys := by
  induction d with
  | nil => exact .inl List.not_mem_nil
  | cons e rest ih =>
    by_cases same : e.1 = k
    · subst same
      exact .inr ⟨[], rest, e.2, rfl, List.not_mem_nil⟩
    · rcases ih with absent | ⟨before, after, v, rfl, absent⟩
      · exact .inl (List.not_mem_cons_of_ne_of_not_mem (Ne.symm same) absent)
      · right
        exact ⟨e :: before, after, v, rfl,
          List.not_mem_cons_of_ne_of_not_mem (Ne.symm same) absent⟩

/-- Where keys are not repeated, the place of a key is the only one. -/
theorem absent_around (nodup : (before ++ (k, v) :: after).keys.Nodup) :
    k ∉ before.keys ∧ k ∉ after.keys := by
  rw [keys_append, List.nodup_append] at nodup
  constructor
  · intro member
    exact nodup.2.2 k member k (List.mem_cons_self ..) rfl
  · exact (List.nodup_cons.mp nodup.2.1).1

theorem find?_absent (absent : k ∉ d.keys) : d.find? k = none := by
  simpa [find?] using fun e l member => ne_of_absent absent (e := (e, l)) member

theorem find?_present (absent : k ∉ before.keys) :
    Dictionary.find? (before ++ (k, v) :: after) k = some v := by
  have none : List.find? (fun e : Key × Value => decide (e.1 = k)) before = none := by
    apply List.find?_eq_none.mpr
    intro e member
    simpa using ne_of_absent absent member
  simp [find?, List.find?_append, none]

theorem assign_absent (absent : k ∉ d.keys) : d.assign k v = d ++ [(k, v)] := if_neg absent

theorem assign_present (nodup : (before ++ (k, v) :: after).keys.Nodup) :
    Dictionary.assign (before ++ (k, v) :: after) k w = before ++ (k, w) :: after := by
  have there : k ∈ Dictionary.keys (before ++ (k, v) :: after) := by simp [keys]
  have same : ∀ part : Dictionary, k ∉ part.keys →
      (part.map fun e => if e.1 = k then (k, w) else e) = part := by
    intro part absent
    rw [List.map_congr_left fun e member => if_neg (ne_of_absent absent member), List.map_id']
  obtain ⟨left, right⟩ := absent_around nodup
  rw [assign, if_pos there, List.map_append, List.map_cons, same before left, same after right,
    if_pos rfl]

theorem remove_absent (absent : k ∉ d.keys) : d.remove k = d := by
  apply List.filter_eq_self.mpr
  intro e member
  simpa using ne_of_absent absent member

theorem remove_present (nodup : (before ++ (k, v) :: after).keys.Nodup) :
    Dictionary.remove (before ++ (k, v) :: after) k = before ++ after := by
  obtain ⟨left, right⟩ := absent_around nodup
  have first : before.filter (fun e => decide (e.1 ≠ k)) = before := remove_absent left
  have last : after.filter (fun e => decide (e.1 ≠ k)) = after := remove_absent right
  rw [remove, List.filter_append, List.filter_cons_of_neg (by simp), first, last]

end Dictionary

namespace Heap

variable {heap old new : Heap} {roots : List Handle} {h t : Handle} {v key : Value} {k : Key}
  {d : Dictionary}

/-- What a scalar, a text, a form or a journey is known by as a key. -/
def keyOf? (heap : Heap) (v : Value) : Option Key :=
  match v with
  | .text h =>
    match heap.get? h with
    | some (.text content) => some (.spelled content)
    | _ => none
  | .ni | .veracity _ | .numeral _ | .form _ | .journey _ => some (.itself v)
  | .imitation _ | .book _ | .codex _ | .other _ => none

/-- What a value is known by when it is looked up: any value may be. -/
def nameOf? (heap : Heap) (v : Value) : Option Key :=
  match v with
  | .text _ => heap.keyOf? v
  | _ => some (.itself v)

def Files (heap : Heap) (entry : Value × Value) (e : Key × Value) : Prop :=
  heap.keyOf? entry.1 = some e.1 ∧ entry.2 = e.2

/-- The codex in a slot has the entries of a dictionary, in its order and no key twice. -/
structure Represents (heap : Heap) (h : Handle) (d : Dictionary) : Prop where
  entries : ∃ entries, heap.get? h = some (.codex entries) ∧ List.Forall₂ heap.Files entries d
  unique : d.keys.Nodup

theorem keyOf?_text (known : heap.keyOf? (.text t) = some k) :
    ∃ content, heap.get? t = some (.text content) ∧ k = .spelled content := by
  simp only [keyOf?] at known
  split at known
  · rename_i content used
    exact ⟨content, used, (Option.some.inj known).symm⟩
  · cases known

theorem nameOf?_of_keyOf? (known : heap.keyOf? v = some k) : heap.nameOf? v = some k := by
  cases v with
  | imitation | book | codex | other => cases known
  | _ => exact known

/-- A key is known by the same as long as its text stays. -/
theorem keyOf?_kept (known : old.keyOf? key = some k)
    (texts : ∀ t content, key = .text t → old.get? t = some (.text content) →
      new.get? t = old.get? t) : new.keyOf? key = some k := by
  cases key with
  | text t =>
    obtain ⟨content, used, _⟩ := keyOf?_text known
    simp only [keyOf?] at known ⊢
    rwa [texts t content rfl used]
  | _ => exact known

theorem keyOf?_retained (retains : old.Retains roots new) (known : old.keyOf? key = some k)
    (rooted : ∀ t, key = .text t → old.Reachable roots t) : new.keyOf? key = some k :=
  keyOf?_kept known fun t _ same _ => retains.kept t (rooted t same)

theorem Files.retained {entries : List (Value × Value)} {entry : Value × Value}
    {e : Key × Value} (filed : old.Files entry e) (retains : old.Retains roots new)
    (rooted : old.Reachable roots h) (used : old.get? h = some (.codex entries))
    (member : entry ∈ entries) : new.Files entry e := by
  refine ⟨keyOf?_kept filed.1 fun t content same there => retains.kept t ?_, filed.2⟩
  refine .child rooted used ?_ there
  rw [Object.children_eq]
  apply List.mem_filterMap.mpr
  exact ⟨entry.1, Object.links_entry member (by simp), by simp [same, Value.handle?]⟩

theorem Represents.retained (represents : old.Represents h d) (retains : old.Retains roots new)
    (rooted : old.Reachable roots h) : new.Represents h d := by
  obtain ⟨⟨entries, used, files⟩, unique⟩ := represents
  refine ⟨⟨entries, (retains.kept h rooted).trans used, ?_⟩, unique⟩
  rw [List.forall₂_iff_get] at files ⊢
  exact ⟨files.1, fun i left right =>
    (files.2 i left right).retained retains rooted used (List.get_mem _ _)⟩

/-- Another object may change if it is no text. -/
theorem Represents.edited (represents : old.Represents h d) {j : Handle} (other : j ≠ h)
    (texts : ∀ content, old.get? j ≠ some (.text content))
    (others : ∀ k, k ≠ j → new.get? k = old.get? k) : new.Represents h d := by
  obtain ⟨⟨entries, used, files⟩, unique⟩ := represents
  refine ⟨⟨entries, (others h other.symm).trans used, files.imp ?_⟩, unique⟩
  rintro entry e ⟨known, value⟩
  refine ⟨keyOf?_kept known fun t content _ there => others t ?_, value⟩
  rintro rfl
  exact texts content there

end Heap

namespace Run

variable {env : Env} {m : Machine} {h : Handle} {key value a b : Value} {k l : Key}
  {d : Dictionary} {entries : List (Value × Value)}

/-- Language equality of a key with what is looked up. -/
theorem eql_keys (first : m.heap.keyOf? a = some k) (second : m.heap.nameOf? b = some l) :
    eql a b env m = .ok (decide (k = l)) m := by
  have here : eql a b env m = eqlWithin (env.depth + comparisonRoom m.heap.capacity + 1) [] a b
    env m := rfl
  rw [here]
  cases a with
  | text s =>
    obtain ⟨content, used, rfl⟩ := Heap.keyOf?_text first
    cases b with
    | text t =>
      obtain ⟨content', other, rfl⟩ := Heap.keyOf?_text second
      simp only [eqlWithin, Key.spelled.injEq]
      split
      · rename_i same
        subst same
        cases used.symm.trans other
        simp [pure_eq_ok]
      · exact (bind_ok (read_text used)).trans (bind_ok (read_text other))
    | _ =>
      cases second
      rfl
  | ni | veracity | numeral | form | journey =>
    cases first
    cases b with
    | text t =>
      obtain ⟨content, _, rfl⟩ := Heap.keyOf?_text second
      rfl
    | _ =>
      cases second
      simp [eqlWithin, pure_eq_ok]
  | _ => cases first

/-- A search finds the place and the value of a key. -/
theorem findKey_present {before after : Dictionary} {v : Value} (position : Nat)
    (files : List.Forall₂ m.heap.Files entries (before ++ (k, v) :: after))
    (known : m.heap.nameOf? key = some k) (absent : k ∉ before.keys) :
    findKey? eql key position entries env m = .ok (some (position + before.length, v)) m := by
  induction before generalizing entries position with
  | nil =>
    obtain ⟨entry, rest, filed, _, rfl⟩ := List.forall₂_cons_right_iff.mp files
    refine (bind_ok (eql_keys filed.1 known)).trans ?_
    rw [if_pos (by simp), filed.2]
    rfl
  | cons e before ih =>
    obtain ⟨entry, rest, filed, others, rfl⟩ := List.forall₂_cons_right_iff.mp files
    have other : e.1 ≠ k := Dictionary.ne_of_absent absent (List.mem_cons_self ..)
    refine (bind_ok (eql_keys filed.1 known)).trans ?_
    rw [if_neg (by simpa using other), ih (position + 1) others
      (List.not_mem_of_not_mem_cons absent), List.length_cons, Nat.add_assoc, Nat.add_comm 1]

theorem findKey_absent (position : Nat) (files : List.Forall₂ m.heap.Files entries d)
    (known : m.heap.nameOf? key = some k) (absent : k ∉ d.keys) :
    findKey? eql key position entries env m = .ok none m := by
  induction files generalizing position with
  | nil => rfl
  | @cons entry e entries d filed others ih =>
    have other : e.1 ≠ k := Dictionary.ne_of_absent absent (List.mem_cons_self ..)
    refine (bind_ok (eql_keys filed.1 known)).trans ?_
    rw [if_neg (by simpa using other)]
    exact ih (position + 1) (List.not_mem_of_not_mem_cons absent)

theorem codexPosition_eq {found : Option (Nat × Value)}
    (used : m.heap.get? h = some (.codex entries))
    (search : ∀ m' : Machine, m'.heap = m.heap →
      findKey? eql key 0 entries env m' = .ok found m') :
    codexPosition? h key env m = .ok found m :=
  (bind_ok (read_codex used)).trans (withPinned_ok (search _ rfl))

/-- The entry at the place of a key. -/
theorem split_files {heap : Heap} {before after : Dictionary} {e : Key × Value}
    (files : List.Forall₂ heap.Files entries (before ++ e :: after)) :
    ∃ first entry rest, entries = first ++ entry :: rest ∧ first.length = before.length ∧
      List.Forall₂ heap.Files first before ∧ heap.Files entry e ∧
      List.Forall₂ heap.Files rest after := by
  induction before generalizing entries with
  | nil =>
    obtain ⟨entry, rest, filed, others, rfl⟩ := List.forall₂_cons_right_iff.mp files
    exact ⟨[], entry, rest, rfl, rfl, .nil, filed, others⟩
  | cons f before ih =>
    obtain ⟨head, tail, filed, others, rfl⟩ := List.forall₂_cons_right_iff.mp files
    obtain ⟨first, entry, rest, rfl, length, left, here, right⟩ := ih others
    exact ⟨head :: first, entry, rest, rfl, congrArg (· + 1) length, .cons filed left, here, right⟩

theorem represents_edited {m' : Machine} {after : List (Value × Value)} {d' : Dictionary}
    (used : m.heap.get? h = some (.codex entries)) (edited : m.Edited h (.codex after) m')
    (files : List.Forall₂ m.heap.Files after d') (unique : d'.keys.Nodup) :
    m'.heap.Represents h d' := by
  have still : ∀ e f, m.heap.Files e f → m'.heap.Files e f := by
    rintro e f ⟨known, value⟩
    refine ⟨Heap.keyOf?_kept known fun t content _ there => edited.others t ?_, value⟩
    rintro rfl
    rw [used] at there
    cases there
  exact ⟨⟨after, edited.object, files.imp still⟩, unique⟩

theorem editCodex_done {f : List (Value × Value) → List (Value × Value)}
    (used : m.heap.get? h = some (.codex entries)) :
    ∃ m', editCodex h f env m = .ok () m' ∧ m.Edited h (.codex (f entries)) m' ∧
      (m.heap.Tidy → m'.heap.Tidy) := by
  have seen : (codex h >>= fun _ => pure ()) env m = .ok () m := bind_ok (read_codex used)
  have looked : (discard (codex h) : Run PUnit) env m = .ok () m := seen
  have edited := Machine.edited (m := m) (f := recoded f) used .codex
  exact ⟨_, bind_ok looked, edited, fun tidy => tidy.modify h (recoded f)⟩

theorem editEntry_done {f : List (Value × Value) → List (Value × Value)} {position : Nat}
    (used : m.heap.get? h = some (.codex entries)) (inside : position < entries.length) :
    ∃ m', editEntry h position f env m = .ok () m' ∧ m.Edited h (.codex (f entries)) m' ∧
      (m.heap.Tidy → m'.heap.Tidy) := by
  obtain ⟨m', done, rest⟩ := editCodex_done (f := f) used
  apply Exists.intro m'
  constructor
  · refine (bind_ok (read_codex used)).trans ?_
    rw [if_pos inside]
    exact done
  · exact rest

theorem removeEntry_done {position : Nat} (used : m.heap.get? h = some (.codex entries))
    (inside : position < entries.length) :
    ∃ m', removeEntry h position env m = .ok () m' ∧
      m.Edited h (.codex (entries.eraseIdx position)) m' ∧ (m.heap.Tidy → m'.heap.Tidy) := by
  have edited := Machine.edited (m := m) (f := recoded (·.eraseIdx position)) used .codex
  refine ⟨{ m with
    heap := m.heap.modify h (recoded (·.eraseIdx position))
    removals := (h, position) :: m.removals }, ?_, ?_, fun tidy => tidy.modify h (recoded _)⟩
  · refine (bind_ok (read_codex used)).trans ?_
    rw [if_pos inside]
    rfl
  · exact ⟨edited.object, edited.others, edited.refers⟩

/-- An operation on a codex keeps all other objects. -/
structure Changes (m : Machine) (h : Handle) (d : Dictionary) (m' : Machine) : Prop where
  represents : m'.heap.Represents h d
  others : ∀ k, k ≠ h → m'.heap.get? k = m.heap.get? k
  tidy : m.heap.Tidy → m'.heap.Tidy

/-- What a search for a key comes to, in every machine with the heap. -/
inductive Sought (heap : Heap) (h : Handle) (key : Value) (k : Key) : Dictionary → Prop where
  | absent {d : Dictionary} {entries : List (Value × Value)} : k ∉ d.keys →
      heap.get? h = some (.codex entries) → List.Forall₂ heap.Files entries d →
      (∀ env m, m.heap = heap → codexPosition? h key env m = .ok none m) →
      Sought heap h key k d
  | present {before after : Dictionary} {v : Value} {first rest : List (Value × Value)}
      {entry : Value × Value} : heap.get? h = some (.codex (first ++ entry :: rest)) →
      List.Forall₂ heap.Files first before → heap.Files entry (k, v) →
      List.Forall₂ heap.Files rest after →
      (∀ env m, m.heap = heap → codexPosition? h key env m = .ok (some (first.length, v)) m) →
      Sought heap h key k (before ++ (k, v) :: after)

theorem sought {heap : Heap} (represents : heap.Represents h d)
    (known : heap.nameOf? key = some k) : Sought heap h key k d := by
  obtain ⟨⟨entries, used, files⟩, unique⟩ := represents
  rcases d.split_at k with absent | ⟨before, after, v, rfl, absent⟩
  · apply Sought.absent absent used files
    rintro env m rfl
    exact codexPosition_eq used fun m' same => by
      rw [← same] at files known
      exact findKey_absent 0 files known absent
  · obtain ⟨first, entry, rest, rfl, length, left, here, right⟩ := split_files files
    apply Sought.present used left here right
    rintro env m rfl
    exact codexPosition_eq used fun m' same => by
      rw [← same] at files known
      rw [findKey_present 0 files known absent, Nat.zero_add, length]

/-- Storing a value under a key assigns it. -/
theorem codexInsert_assigns (represents : m.heap.Represents h d)
    (known : m.heap.keyOf? key = some k) (value : Value) (env : Env) :
    ∃ m', codexInsert h key value env m = .ok () m' ∧ Changes m h (d.assign k value) m' := by
  have unique : (d.assign k value).keys.Nodup := Dictionary.nodup_assign represents.unique
  have once := represents.unique
  -- The search runs no code, so it answers with anything pinned.
  have pinned : ∀ found, (∀ env m', m'.heap = m.heap →
      codexPosition? h key env m' = .ok found m') →
      withPinned [key, value] (codexPosition? h key) env m = .ok found m := fun found search =>
    withPinned_ok (search env (m.pin [key, value]) rfl)
  cases sought represents (Heap.nameOf?_of_keyOf? known) with
  | @absent d entries missing used files search =>
    obtain ⟨m', done, edited, tidy⟩ := editCodex_done (f := (· ++ [(key, value)])) used
    apply Exists.intro m'
    constructor
    · exact (bind_ok (pinned none search)).trans done
    · refine ⟨represents_edited used edited ?_ unique, edited.others, tidy⟩
      rw [Dictionary.assign_absent missing]
      exact List.rel_append files (.cons ⟨known, rfl⟩ .nil)
  | @present before after v first rest entry used left here right search =>
    have inside : first.length < (first ++ entry :: rest).length := by simp
    obtain ⟨m', done, edited, tidy⟩ :=
      editEntry_done (f := (·.modify first.length fun e => (e.1, value))) used inside
    apply Exists.intro m'
    constructor
    · exact (bind_ok (pinned _ search)).trans done
    · refine ⟨represents_edited used edited ?_ unique, edited.others, tidy⟩
      have filed : m.heap.Files (entry.1, value) (k, value) := ⟨here.1, rfl⟩
      rw [Dictionary.assign_present once, List.modify_eq_take_cons_drop (by simp)]
      simpa using List.rel_append left (.cons filed right)

/-- Removing a key removes it and gives what was stored under it. -/
theorem codexRemove_removes (represents : m.heap.Represents h d)
    (known : m.heap.nameOf? key = some k) (env : Env) :
    ∃ m', codexRemove? h key env m = .ok (d.find? k) m' ∧ Changes m h (d.remove k) m' := by
  have unique : (d.remove k).keys.Nodup := Dictionary.nodup_remove represents.unique
  have once := represents.unique
  cases sought represents known with
  | @absent d entries missing used files search =>
    apply Exists.intro m
    constructor
    · rw [Dictionary.find?_absent missing]
      exact bind_ok (search env m rfl)
    · rw [Dictionary.remove_absent missing]
      exact ⟨represents, fun _ _ => rfl, id⟩
  | @present before after v first rest entry used left here right search =>
    have inside : first.length < (first ++ entry :: rest).length := by simp
    obtain ⟨m', removed, edited, tidy⟩ := removeEntry_done used inside
    apply Exists.intro m'
    constructor
    · rw [Dictionary.find?_present (Dictionary.absent_around once).1]
      exact (bind_ok (search env m rfl)).trans (bind_ok removed)
    · refine ⟨represents_edited used edited ?_ unique, edited.others, tidy⟩
      rw [Dictionary.remove_present once, List.eraseIdx_append_of_length_le (Nat.le_refl _)]
      simpa using List.rel_append left right

theorem codexLookup_finds (represents : m.heap.Represents h d)
    (known : m.heap.nameOf? key = some k) (env : Env) :
    codexLookup? h key env m = .ok (d.find? k) m := by
  have once := represents.unique
  cases sought represents known with
  | absent missing _ _ search =>
    rw [Dictionary.find?_absent missing]
    exact bind_ok (search env m rfl)
  | present _ _ _ _ search =>
    rw [Dictionary.find?_present (Dictionary.absent_around once).1]
    exact bind_ok (search env m rfl)

end Run

end JourneyMachine
