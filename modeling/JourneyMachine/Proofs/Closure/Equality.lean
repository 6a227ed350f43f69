import JourneyMachine.Proofs.Closure.Conversions

namespace JourneyMachine.Run

open Machine (Within)

/-- A test of two values that needs only that they refer. -/
def Tests (strict : Prop) (env : Env) (equal : Value → Value → Run Bool) : Prop :=
  ∀ {R : Region strict} {m : Machine} {a b : Value}, m.heap.Refers a → m.heap.Refers b →
    Meets R env (equal a b) m fun _ _ => True

variable {strict : Prop} {R : Region strict} {env : Env} {m m₀ : Machine} {h : Handle}

section Searches

variable {equal : Value → Value → Run Bool} {key : Value}

theorem meets_findKey? {entries : List (Value × Value)} (position : Nat)
    (each : ∀ entry ∈ entries, ∀ m, Meets R env (equal entry.1 key) m fun _ _ => True) :
    Meets R env (findKey? equal key position entries) m fun found _ =>
      ∀ p v, found = some (p, v) → ∃ k, (k, v) ∈ entries := by
  induction entries generalizing position m with
  | nil => exact .pure fun _ _ _ same => by cases same
  | cons entry rest ih =>
    obtain ⟨k, v⟩ := entry
    refine (each (k, v) (List.mem_cons_self ..) m).bind fun same m' _ _ => ?_
    cases same with
    | true =>
      refine .pure fun _ p w found => ⟨k, ?_⟩
      cases found
      exact List.mem_cons_self ..
    | false =>
      refine (ih (position + 1) fun e member => each e (List.mem_cons_of_mem _ member)).weaken ?_
      intro found _ _ post p w there
      obtain ⟨k', member⟩ := post p w there
      exact ⟨k', List.mem_cons_of_mem _ member⟩

theorem meets_searchCodex (tests : Tests strict env equal) (holds : strict → m.heap.Holds .codex h)
    (refers : m.heap.Refers key) :
    Meets R env (searchCodex equal h key) m fun found m' =>
      ∀ p v, found = some (p, v) → m'.heap.Refers v := by
  refine (meets_codex holds).bind ?_
  rintro entries m' region ⟨rfl, used⟩
  have parts : ∀ entry ∈ entries, ∀ w ∈ [entry.1, entry.2],
      w ∈ (Object.codex entries).links ++ [key] := fun entry member w part =>
    List.mem_append_left _ (Object.links_entry member part)
  refine (Meets.withPinned (Q := fun found _ => ∀ p v, found = some (p, v) → ∃ k, (k, v) ∈ entries)
    (fun _ w member => ?_)
    (meets_findKey? 0 fun entry member m₁ => .intro fun within => ?_)).weaken ?_
  · rcases List.mem_append.mp member with entry | last
    · exact (R.closed region).heap h _ used w entry
    · rw [List.mem_singleton.mp last]
      exact refers
  · exact tests (within.refers (Machine.held_pinned (parts entry member _ (by simp))))
      (within.refers (Machine.held_pinned (by simp)))
  · rintro found m₁ _ ⟨still, post⟩ p v same
    obtain ⟨k, member⟩ := post p v same
    exact still v (parts (k, v) member v (by simp))

theorem meets_equalPages {pairs : List (Value × Value)}
    (each : ∀ pair ∈ pairs, ∀ m, Meets R env (equal pair.1 pair.2) m fun _ _ => True) :
    Meets R env (equalPages equal pairs) m fun _ _ => True := by
  induction pairs generalizing m with
  | nil => exact .pure fun _ => trivial
  | cons pair rest ih =>
    obtain ⟨a, b⟩ := pair
    refine (each (a, b) (List.mem_cons_self ..) m).bind fun same m' _ _ => ?_
    cases same with
    | true => exact ih fun e member => each e (List.mem_cons_of_mem _ member)
    | false => exact .pure fun _ => trivial

theorem meets_equalEntries {lookup : Value → Run (Option (Nat × Value))}
    {entries : List (Value × Value)} (tests : Tests strict env equal)
    (held : ∀ entry ∈ entries, ∀ m, R.holds m → m.heap.Refers entry.2)
    (found : ∀ entry ∈ entries, ∀ m, Meets R env (lookup entry.1) m fun found m' =>
      ∀ p v, found = some (p, v) → m'.heap.Refers v) :
    Meets R env (equalEntries equal lookup entries) m fun _ _ => True := by
  induction entries generalizing m with
  | nil => exact .pure fun _ => trivial
  | cons entry rest ih =>
    obtain ⟨k, v⟩ := entry
    refine (found (k, v) (List.mem_cons_self ..) m).bind fun hit m' region post => ?_
    cases hit with
    | none => exact .pure fun _ => trivial
    | some hit =>
      obtain ⟨p, w⟩ := hit
      have value := held (k, v) (List.mem_cons_self ..) m' region
      refine (tests value (post p w rfl)).bind fun same m₁ _ _ => ?_
      cases same with
      | true =>
        exact ih (fun e member => held e (List.mem_cons_of_mem _ member))
          fun e member => found e (List.mem_cons_of_mem _ member)
      | false => exact .pure fun _ => trivial

end Searches

section Calls

variable (calls : env.Calls strict)
include calls

theorem meets_eqlWithin (room : Nat) (comparing : List (Handle × Handle)) :
    Tests strict env (eqlWithin room comparing) := by
  -- On the rounds, for every path: the parts of containers are compared while these are pinned.
  induction room generalizing comparing with
  | zero => exact fun _ _ => .fail fun _ _ => by simp
  | succ room ih =>
    intro R m lhs rhs left right
    unfold eqlWithin
    split
    · rename_i l r
      split
      · exact .pure fun _ => trivial
      · refine (meets_text fun _ => (Heap.refers_text).mp left).bind ?_
        rintro first m' _ ⟨rfl, _⟩
        exact (meets_text fun _ => (Heap.refers_text).mp right).bind fun _ _ _ _ =>
          .pure fun _ => trivial
    · rename_i l r
      split
      · exact .pure fun _ => trivial
      · refine (meets_book fun _ => (Heap.refers_book).mp left).bind ?_
        rintro first m' region ⟨rfl, usedLeft⟩
        refine (meets_book fun _ => (Heap.refers_book).mp right).bind ?_
        rintro second m₁ _ ⟨rfl, usedRight⟩
        split
        · exact .pure fun _ => trivial
        · refine (Meets.withPinned (Q := fun _ _ => True) (fun _ w member => ?_)
            (meets_equalPages fun pair member m₂ => .intro fun within => ?_)).weaken
              fun _ _ _ _ => trivial
          · rcases List.mem_append.mp member with one | other
            · exact (R.closed region).heap l _ usedLeft w one
            · exact (R.closed region).heap r _ usedRight w other
          · have both := List.of_mem_zip (show (pair.1, pair.2) ∈ _ from member)
            exact ih _ (within.refers (Machine.held_pinned (List.mem_append_left _ both.1)))
              (within.refers (Machine.held_pinned (List.mem_append_right _ both.2)))
    · rename_i l r
      split
      · exact .pure fun _ => trivial
      · refine (meets_codex fun _ => (Heap.refers_codex).mp left).bind ?_
        rintro first m' region ⟨rfl, usedLeft⟩
        refine (meets_codex fun _ => (Heap.refers_codex).mp right).bind ?_
        rintro second m₁ _ ⟨rfl, usedRight⟩
        split
        · exact .pure fun _ => trivial
        · have parts : ∀ entry ∈ first, ∀ w ∈ [entry.1, entry.2],
              w ∈ (Object.codex first).links ++ [.codex r] := fun entry member w part =>
            List.mem_append_left _ (Object.links_entry member part)
          refine (Meets.withPinned (Q := fun _ _ => True) (fun _ w member => ?_)
            (meets_equalEntries (ih _) (fun entry member m₂ within => ?_)
              fun entry member m₂ => .intro fun within => ?_)).weaken fun _ _ _ _ => trivial
          · rcases List.mem_append.mp member with one | last
            · exact (R.closed region).heap l _ usedLeft w one
            · rw [List.mem_singleton.mp last]
              exact right
          · exact within.refers (Machine.held_pinned (parts entry member _ (by simp)))
          · exact meets_searchCodex (ih [])
              (fun _ => (Heap.refers_codex).mp (within.refers (Machine.held_pinned (by simp))))
              (within.refers (Machine.held_pinned (parts entry member _ (by simp))))
    · rename_i l
      refine (meets_callChange? calls "==" [.imitation l, rhs] (fun _ => left)
        (List.forall_mem_cons.mpr ⟨left, List.forall_mem_singleton.mpr right⟩)).bind ?_
      rintro found m' _ ⟨result, _⟩
      cases found with
      | none => exact .pure fun _ => trivial
      | some r => exact meets_toVeracity calls (result r rfl)
    · exact .pure fun _ => trivial

theorem meets_eql : Tests strict env eql :=
  fun left right => .get (fun _ => rfl) (meets_eqlWithin calls _ [] left right)

theorem meets_codexPosition? {key : Value} (holds : strict → m.heap.Holds .codex h)
    (refers : m.heap.Refers key) :
    Meets R env (codexPosition? h key) m fun found m' =>
      ∀ p v, found = some (p, v) → m'.heap.Refers v :=
  meets_searchCodex (meets_eql calls) holds refers

theorem meets_codexLookup? {key : Value} (holds : strict → m.heap.Holds .codex h)
    (refers : m.heap.Refers key) :
    Meets R env (codexLookup? h key) m fun found m' => m'.heap.Refers (found.getD .ni) := by
  refine (meets_codexPosition? calls holds refers).bind fun found m' _ post => .pure fun _ => ?_
  cases found with
  | none => exact Heap.refers_ni
  | some hit => exact post hit.1 hit.2 rfl

end Calls

section Entries

variable {key value : Value}

theorem meets_editEntry {f : List (Value × Value) → List (Value × Value)} (position : Nat)
    (keys : ∀ entries, entries.map (·.1) <+: (f entries).map (·.1))
    (holds : strict → m.heap.Holds .codex h)
    (refer : ∀ entries, m.heap.get? h = some (.codex entries) → R.holds m →
      ∀ v ∈ (f entries).flatMap (fun (k, v) => [k, v]), m.heap.Refers v) :
    Meets R env (editEntry h position f) m fun _ m' =>
      ∃ entries, m.heap.get? h = some (.codex entries) ∧ m.Edited h (.codex (f entries)) m' := by
  refine (meets_codex holds).bind ?_
  rintro entries m' _ ⟨rfl, _⟩
  split
  · exact meets_editCodex keys holds refer
  · exact .fail fun _ _ => by simp

theorem meets_removeEntry (position : Nat) (holds : strict → m.heap.Holds .codex h) :
    Meets R env (removeEntry h position) m fun _ m' =>
      ∃ entries, m.heap.get? h = some (.codex entries) ∧
        m.Edited h (.codex (entries.eraseIdx position)) m' := by
  refine (meets_codex holds).bind ?_
  rintro entries m' _ ⟨rfl, used⟩
  split
  · refine (meets_removal used fun region w member => ?_).weaken
      fun _ _ _ edited => ⟨entries, used, edited⟩
    obtain ⟨entry, there, part⟩ := List.mem_flatMap.mp member
    exact (R.closed region).heap h _ used w
      (List.mem_flatMap.mpr ⟨entry, List.mem_of_mem_eraseIdx there, part⟩)
  · exact .fail fun _ _ => by simp

/-- An insertion after a search that leaves of the heap what `P` says. -/
theorem codexInsert_after {P : Heap → Prop} (refersKey : m.heap.Refers key)
    (refersValue : m.heap.Refers value)
    (holds : ∀ m', R.holds m' → strict → m'.heap.Holds .codex h)
    (search : Meets (.within strict (m.pin [key, value])) env (codexPosition? h key)
      (m.pin [key, value]) fun _ m' => P m'.heap) :
    Meets R env (codexInsert h key value) m fun _ m' =>
      ∃ (m₁ : Machine) (before after : List (Value × Value)), P m₁.heap ∧
        m₁.heap.get? h = some (.codex before) ∧ m₁.Edited h (.codex after) m' ∧
        ∀ entry ∈ after, entry.1 = key ∨ ∃ old ∈ before, entry.1 = old.1 := by
  refine (Meets.withPinned (Q := fun _ heap => P heap) (fun _ => List.forall_mem_cons.mpr
    ⟨refersKey, List.forall_mem_singleton.mpr refersValue⟩) search).bind ?_
  rintro found m₁ region ⟨still, searched⟩
  obtain ⟨stillKey, rest⟩ := List.forall_mem_cons.mp still
  have stillValue := List.forall_mem_singleton.mp rest
  -- An equal key keeps its place and gets the new value; otherwise the entry goes last.
  cases found with
  | some hit =>
    obtain ⟨position, old⟩ := hit
    have keys : ∀ entries : List (Value × Value), entries.map (·.1) <+:
        (entries.modify position fun (k, _) => (k, value)).map (·.1) := fun entries => by
      rw [map_modify (fun e : Value × Value => (e.1, value)) fun _ => rfl]
    refine (meets_editEntry position keys (holds m₁ region)
      fun entries used closed w member => ?_).weaken ?_
    · obtain ⟨entry, there, part⟩ := List.mem_flatMap.mp member
      have before : ∀ old ∈ entries, ∀ w ∈ [old.1, old.2], m₁.heap.Refers w := fun old of w part =>
        (R.closed closed).heap h _ used w (List.mem_flatMap.mpr ⟨old, of, part⟩)
      rcases mem_modify there with same | ⟨old, of, rfl⟩
      · exact before entry same w part
      · rcases List.mem_cons.mp part with rfl | last
        · exact before old of _ (by simp)
        · rw [List.mem_singleton.mp last]
          exact stillValue
    · rintro _ m₂ _ ⟨entries, used, edited⟩
      refine ⟨m₁, entries, _, searched, used, edited, fun entry member => .inr ?_⟩
      rcases mem_modify member with same | ⟨old, of, rfl⟩
      · exact ⟨entry, same, rfl⟩
      · exact ⟨old, of, rfl⟩
  | none =>
    have keys : ∀ entries : List (Value × Value), entries.map (·.1) <+:
        (entries ++ [(key, value)]).map (·.1) := fun entries => by simp
    refine (meets_editCodex keys (holds m₁ region) fun entries used closed w member => ?_).weaken ?_
    · rw [List.flatMap_append] at member
      rcases List.mem_append.mp member with before | last
      · exact (R.closed closed).heap h _ used w before
      · simp only [List.flatMap_cons, List.flatMap_nil, List.append_nil, List.mem_cons,
          List.not_mem_nil, or_false] at last
        rcases last with rfl | rfl
        · exact stillKey
        · exact stillValue
    · rintro _ m₂ _ ⟨entries, used, edited⟩
      refine ⟨m₁, entries, _, searched, used, edited, fun entry member => ?_⟩
      rcases List.mem_append.mp member with before | last
      · exact .inr ⟨entry, before, rfl⟩
      · rw [List.mem_singleton.mp last]
        exact .inl rfl

variable (calls : env.Calls strict)
include calls

theorem meets_codexInsert (held : .codex h ∈ m₀.held) (refersKey : m.heap.Refers key)
    (refersValue : m.heap.Refers value) :
    Meets (.within strict m₀) env (codexInsert h key value) m fun _ _ => True := by
  refine .intro fun within => ?_
  have holds : ∀ m', Within strict m₀ m' → m'.heap.Holds .codex h :=
    fun m' there => (Heap.refers_codex).mp (there.refers held)
  exact (codexInsert_after (P := fun _ => True) refersKey refersValue
    (fun m' there _ => holds m' there)
    ((meets_codexPosition? calls (m := m.pin [key, value]) (fun _ => holds m within)
      refersKey).weaken fun _ _ _ _ => trivial)).weaken fun _ _ _ _ => trivial

theorem meets_codexRemove? (held : .codex h ∈ m₀.held) (refersKey : m.heap.Refers key) :
    Meets (.within strict m₀) env (codexRemove? h key) m fun found m' =>
      m'.heap.Refers (found.getD .ni) := by
  refine .intro fun within => ?_
  refine (meets_codexPosition? calls (fun _ => (Heap.refers_codex).mp (within.refers held))
    refersKey).bind fun found m' region post => ?_
  cases found with
  | none => exact .pure fun _ => Heap.refers_ni
  | some hit =>
    refine (meets_removeEntry hit.1 fun _ => (Heap.refers_codex).mp (region.refers held)).bind ?_
    rintro _ m₁ _ ⟨_, _, edited⟩
    exact .pure fun _ => edited.refers _ (post hit.1 hit.2 rfl)

theorem meets_codexInsertAll {entries : List (Value × Value)} (held : .codex h ∈ m₀.held)
    (heldEntries : ∀ v ∈ entries.flatMap (fun (k, v) => [k, v]), v ∈ m₀.held) :
    Meets (.within strict m₀) env (codexInsertAll h entries) m fun _ _ => True := by
  induction entries generalizing m with
  | nil => exact .pure fun _ => trivial
  | cons entry rest ih =>
    obtain ⟨k, v⟩ := entry
    refine .intro fun within => ?_
    refine (meets_codexInsert calls held (within.refers (heldEntries k (by simp)))
      (within.refers (heldEntries v (by simp)))).bind fun _ m' _ _ => ?_
    refine ih fun w member => heldEntries w ?_
    rw [List.flatMap_cons]
    exact List.mem_append_right _ member

theorem meets_newCodex {entries : List (Value × Value)}
    (heldEntries : ∀ v ∈ entries.flatMap (fun (k, v) => [k, v]), v ∈ m₀.held) :
    Meets (.within strict m₀) env (newCodex entries) m fun v m' => m'.heap.Refers v := by
  refine .intro fun within => ?_
  refine (Meets.withPinned (Q := fun h heap => heap.Holds .codex h)
    (fun _ v member => within.refers (heldEntries v member))
    ((meets_allocate (o := .codex []) (by simp [Object.genus]) (by simp [Object.links])).weaken
      fun h _ _ placed => placed.holds)).bind ?_
  rintro h m₁ region ⟨_, holds⟩
  refine (Meets.withPinned (Q := fun v _ => v = .codex h)
    (fun _ => List.forall_mem_singleton.mpr ((Heap.refers_codex).mpr holds)) ?_).weaken ?_
  · refine (meets_codexInsertAll calls (Machine.held_pinned (by simp)) fun v member => ?_).bind
      fun _ _ _ _ => .pure fun _ => rfl
    exact Machine.held_pin (region.held.symm ▸ heldEntries v member)
  · rintro _ m₂ _ ⟨still, rfl⟩
    exact List.forall_mem_singleton.mp still

end Entries

end JourneyMachine.Run
