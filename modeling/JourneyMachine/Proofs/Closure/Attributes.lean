import JourneyMachine.Proofs.Closure.Operators

namespace JourneyMachine

open Machine (Within)

namespace Form

variable {f : Form} {i : Nat} {v new : Value}

theorem essence_links {e : Essence} (member : e ∈ f.essences) :
    ∀ v ∈ e.value :: e.guard.toList, v ∈ f.links := by
  intro v part
  simp only [links, List.mem_append, List.mem_flatMap]
  exact .inl (.inl (.inl (.inl (.inl ⟨e, member, part⟩))))

/-- A change of the essences, one by one, adds only what they hold afterwards. -/
theorem links_essences {essences : List Essence}
    (each : ∀ e ∈ essences, ∀ v ∈ e.value :: e.guard.toList, v ∈ f.links ∨ v = new)
    (member : v ∈ ({ f with essences } : Form).links) : v ∈ f.links ∨ v = new := by
  simp only [links, List.mem_append] at member ⊢
  rcases member with ((((changed | rest) | rest) | rest) | rest) | rest
  · obtain ⟨e, there, part⟩ := List.mem_flatMap.mp changed
    have holds := each e there v part
    simp only [links, List.mem_append] at holds
    exact holds
  all_goals tauto

theorem links_setEssence (member : v ∈ (f.setEssence i new).links) : v ∈ f.links ∨ v = new := by
  refine links_essences (fun e there w part => ?_) member
  rcases mem_modify there with old | ⟨old, of, rfl⟩
  · exact .inl (essence_links old w part)
  · rcases List.mem_cons.mp part with rfl | guard
    · exact .inr rfl
    · exact .inl (essence_links of w (List.mem_cons_of_mem _ guard))

theorem guards_setEssence : (f.setEssence i new).guards = f.guards := by
  have same : ∀ (essences : List Essence) (i : Nat),
      (essences.modify i fun e => { e with value := new }).filterMap (·.guard) =
        essences.filterMap (·.guard) := by
    intro essences
    induction essences with
    | nil => exact fun i => by simp
    | cons e rest ih =>
      intro i
      cases i with
      | zero => simp [List.filterMap_cons]
      | succ i => simp [List.filterMap_cons, ih i]
  simp only [guards, setEssence, same]

end Form

namespace Run

variable {strict : Prop} {R : Region strict} {env : Env} {m m₀ : Machine}

section Matching

variable {pattern candidate : Value} (calls : env.Calls strict)
include calls

/-- A call of a journey that may be gone. -/
theorem meets_callPattern {h : Handle} (holds : strict → m.heap.Holds .journey h)
    (held : candidate ∈ m.held) :
    Meets R env (do toVeracity (← call (.journey h) [candidate])) m fun _ _ => True := by
  refine .intro fun region => ?_
  by_cases there : m.heap.Holds .journey h
  · exact (meets_call calls (List.forall_mem_cons.mpr ⟨(Heap.refers_journey).mpr there,
      List.forall_mem_singleton.mpr ((R.closed region).held held)⟩)).bind
        fun _ _ _ post => meets_toVeracity calls post.1
  · obtain ⟨fault, gone⟩ := calls.stale (.ofList [candidate]) there
    exact Meets.bind (P := fun _ _ => False)
      (.fault _ gone fun assumed => absurd (holds assumed) there) fun _ _ _ post => post.elim

theorem meets_matchesWithin (room : Nat) {visiting : List Handle}
    (firm : strict → Heap.Firm m.held m.heap pattern) (held : candidate ∈ m.held) :
    Meets R env (matchesWithin room visiting pattern candidate) m fun _ _ => True := by
  induction room generalizing R m visiting pattern with
  | zero => exact .fail fun _ _ => by simp
  | succ room ih =>
    refine .intro fun start => .lift (.intro fun within => ?_)
    have closed := within.closed
    have refers : strict → m.heap.Refers pattern := fun assumed =>
      (firm assumed).refers closed.heap fun _ => closed.held
    have refersCandidate := closed.held held
    -- A second operand is looked at after code has run for the first.
    have second : ∀ {h o rest m'}, m.heap.get? h = some (.other o) → rest ∈ o.values →
        pattern = .other h → Within strict m m' →
        Meets (.within strict m) env (matchesWithin room visiting rest candidate) m'
          fun _ _ => True := by
      intro h o rest m' used member same later
      refine ih (fun assumed => ?_) (later.held.symm ▸ held)
      rw [later.held]
      exact later.firm assumed (.operand (same ▸ firm assumed) used member)
    unfold matchesWithin
    cases pattern with
    | form h =>
      dsimp only
      split
      · refine (meets_imitation fun _ => (Heap.refers_imitation).mp refersCandidate).bind ?_
        rintro i m' region ⟨rfl, used⟩
        exact (Meets.looks fun _ => Heap.gives_isDescendant closed.heap h
          fun _ => closed.heap.own used).weaken fun _ _ _ _ => trivial
      · exact .pure fun _ => trivial
    | journey h =>
      exact meets_callPattern calls (fun assumed => (Heap.refers_journey).mp (refers assumed)) held
    | text h =>
      refine (meets_text fun assumed => (Heap.refers_text).mp (refers assumed)).bind ?_
      rintro content m' region ⟨rfl, used⟩
      have there : m'.heap.Refers (.text h) := (Heap.refers_text).mpr ⟨_, used, rfl⟩
      split
      · split
        · exact .pure fun _ => trivial
        · exact meets_eql calls there refersCandidate
      · exact meets_eql calls there refersCandidate
    | book h =>
      dsimp only
      split
      · exact .pure fun _ => trivial
      · refine (meets_book fun assumed => (Heap.refers_book).mp (refers assumed)).bind ?_
        rintro pages m' region ⟨rfl, used⟩
        refine (Meets.withPinned (Q := fun _ _ => True) (fun _ => closed.heap h _ used)
          (.anyM fun page member m₁ => .intro fun inner => ih (fun _ => ?_) ?_)).weaken
            fun _ _ _ _ => trivial
        · exact .root (inner.held.symm ▸ Machine.held_pinned member)
        · exact inner.held.symm ▸ Machine.held_pin held
    | other h =>
      refine (meets_other fun assumed => (Heap.refers_other).mp (refers assumed)).bind ?_
      rintro o m' region ⟨rfl, used⟩
      cases o with
      | both lhs rhs =>
        refine (second used (by simp [Other.values]) rfl within).bind fun first m₁ later _ => ?_
        cases first with
        | true => exact second used (by simp [Other.values]) rfl later
        | false => exact .pure fun _ => trivial
      | either lhs rhs =>
        refine (second used (by simp [Other.values]) rfl within).bind fun first m₁ later _ => ?_
        cases first with
        | true => exact .pure fun _ => trivial
        | false => exact second used (by simp [Other.values]) rfl later
      | opposite inner =>
        exact (second used (by simp [Other.values]) rfl within).bind fun _ _ _ _ =>
          .pure fun _ => trivial
      | host journey =>
        have there : m'.heap.Refers (.other h) := (Heap.refers_other).mpr ⟨_, used, rfl⟩
        exact (meets_call calls (List.forall_mem_cons.mpr ⟨there,
          List.forall_mem_singleton.mpr refersCandidate⟩)).bind fun _ _ _ post =>
            meets_toVeracity calls post.1
      | scroll s => exact .pure fun _ => trivial
    | ni => exact meets_eql calls Heap.refers_ni refersCandidate
    | veracity b => exact meets_eql calls (Heap.refers_veracity b) refersCandidate
    | numeral n => exact meets_eql calls (Heap.refers_numeral n) refersCandidate
    | imitation h => exact meets_complain_type refers
    | codex h => exact meets_complain_type refers

theorem meets_fits (firm : strict → Heap.Firm m.held m.heap pattern) (held : candidate ∈ m.held) :
    Meets R env (fits pattern candidate) m fun _ _ => True :=
  .get (fun _ => rfl) (meets_matchesWithin calls _ firm held)

end Matching

section Reading

variable {v : Value}

/-- A value was found, or none was. -/
theorem meets_found (refers : m.heap.Refers v) :
    Meets R env (return some v) m fun found m' => ∀ r, found = some r → m'.heap.Refers r :=
  .pure fun _ _ same => Option.some.inj same ▸ refers

theorem meets_missing :
    Meets R env (return none) m fun (found : Option Value) m' =>
      ∀ r, found = some r → m'.heap.Refers r :=
  .pure fun _ _ same => by cases same

theorem meets_scrollAttribute? {h : Handle} (name : String)
    (holds : strict → m.heap.Holds .other h) :
    Meets R env (scrollAttribute? h name) m fun found m' =>
      ∀ v, found = some v → m'.heap.Refers v := by
  refine (meets_other holds).bind fun o m' _ _ => ?_
  split
  · split
    · exact (meets_newText _).bind fun _ _ _ refers => meets_found refers
    · exact (meets_newText _).bind fun _ _ _ refers => meets_found refers
    · split
      · exact (meets_allocate (by simp [Object.genus])
          (by simp [Object.links, Other.values])).bind fun _ _ _ placed =>
            meets_found ((Heap.refers_other).mpr placed.holds)
      · exact meets_missing
  · exact meets_missing

variable (calls : env.Calls strict)
include calls

theorem meets_attribute? (name : String) (held : v ∈ m₀.held) :
    Meets (.within strict m₀) env (attribute? v name) m fun found m' =>
      ∀ r, found = some r → m'.heap.Refers r := by
  refine .intro fun within => ?_
  have closed := within.closed
  have refers := within.refers held
  -- The first and the last page are looked up by their index.
  have edge : ∀ n : Int64, Meets (.within strict m₀) env (do return some (← index v (.numeral n))) m
      fun found m' => ∀ r, found = some r → m'.heap.Refers r := fun n =>
    (meets_index calls held (Heap.refers_numeral n)).bind fun _ _ _ post => meets_found post
  unfold attribute?
  split
  · exact (meets_genusOf refers).bind fun _ _ _ post => meets_found post
  · split
    · exact (meets_length calls refers).bind fun _ _ _ _ => meets_found (Heap.refers_numeral _)
    · cases v with
      | form h =>
        refine (Meets.looks fun _ => Heap.gives_attribute? closed.heap name
          fun _ => (Heap.refers_form).mp refers).weaken ?_
        rintro found m' _ ⟨rfl, post⟩
        exact post
      | imitation h =>
        refine (meets_imitation fun _ => (Heap.refers_imitation).mp refers).bind ?_
        rintro i m' _ ⟨rfl, used⟩
        refine (Meets.looks fun _ => Heap.gives_change? closed.heap name
          fun _ => closed.heap.own used).bind ?_
        rintro found m₁ _ ⟨rfl, post⟩
        cases found with
        | some change => exact meets_found ((Heap.refers_journey).mpr (post change rfl))
        | none =>
          refine (meets_form fun _ => closed.heap.own used).bind ?_
          rintro f m₂ _ ⟨rfl, _⟩
          split
          · exact meets_missing
          · refine (meets_imitation fun _ => ⟨_, used, rfl⟩).bind ?_
            rintro again m₃ _ ⟨rfl, there⟩
            refine .pure fun _ r same => closed.heap.matter there ?_
            exact Array.mem_toList_iff.mpr (Array.mem_of_getElem? same)
      | book h | text h =>
        dsimp only
        split
        · exact edge 1
        · split
          · exact edge (-1)
          · exact meets_missing
      | journey h =>
        dsimp only
        split
        · exact (meets_journey fun _ => (Heap.refers_journey).mp refers).bind fun _ _ _ _ =>
            meets_found (Heap.refers_numeral _)
        · exact meets_missing
      | other h => exact meets_scrollAttribute? name fun _ => (Heap.refers_other).mp refers
      | ni | veracity | numeral | codex => exact meets_missing

end Reading

section Assigning

/-- A field that an imitation had before code ran is one that it has. -/
theorem field_inside {h : Handle} {own after : Imitation} {f : Form} {i : Nat} {name : String}
    (within : Within strict m₀ m) (held : .imitation h ∈ m₀.held)
    (made : m₀.heap.get? h = some (.imitation own))
    (used : m₀.heap.get? own.form = some (.form f)) (found : f.matterIndex? name = some i)
    (shaped : m.heap.Shaped m.builtins) (there : m.heap.get? h = some (.imitation after)) :
    i < after.matter.size := by
  obtain ⟨again, still, same⟩ := within.evolves.imitations h own held made
  cases Option.some.inj (still.symm.trans there)
  obtain ⟨form, declared, count⟩ := shaped.suited h _ there after rfl
  rw [same] at declared
  obtain ⟨before, start, alike⟩ := within.evolves.forms _ form declared
  cases Option.some.inj (start.symm.trans used)
  rw [← count, alike.matter_length]
  exact Form.matterIndex?_lt found

/-- An array that has the element is not filled up. -/
theorem setPadded_inside {values : Array Value} {i : Nat} {v : Value} (inside : i < values.size) :
    setPadded values i v = values.setIfInBounds i v := by
  unfold setPadded
  rw [Nat.sub_eq_zero_of_le inside, Array.replicate_zero, Array.append_empty]

theorem refers_setPadded {heap : Heap} {values : Array Value} {new : Value} (i : Nat)
    (refer : ∀ w ∈ values.toList, heap.Refers w) (refers : heap.Refers new) :
    ∀ w ∈ (setPadded values i new).toList, heap.Refers w := by
  intro w member
  unfold setPadded at member
  rw [Array.toList_setIfInBounds] at member
  rcases List.mem_or_eq_of_mem_set member with before | rfl
  · rw [Array.toList_append, Array.toList_replicate] at before
    rcases List.mem_append.mp before with old | filler
    · exact refer w old
    · rw [List.eq_of_mem_replicate filler]
      exact Heap.refers_ni
  · exact refers

variable {v new : Value} (calls : env.Calls strict)
include calls

theorem meets_checkGuard {guard : Option Value} (owner field : String)
    (firm : strict → ∀ g, guard = some g → Heap.Firm m.held m.heap g) (held : new ∈ m.held) :
    Meets R env (checkGuard guard new owner field) m fun _ _ => True := by
  cases guard with
  | none => exact .pure fun _ => trivial
  | some g =>
    refine .intro fun region => ?_
    refine (Meets.withPinned (Q := fun _ _ => True)
      (fun _ => List.forall_mem_singleton.mpr ((R.closed region).held held))
      (meets_fits calls (m := m.pin [new]) (fun assumed => ?_) (Machine.held_pin held))).bind ?_
    · exact (firm assumed g rfl).mono fun _ => Machine.held_pin
    · rintro fitting m' _ ⟨still, _⟩
      cases fitting with
      | true => exact .pure fun _ => trivial
      | false => exact meets_complain_type fun _ => List.forall_mem_singleton.mp still

theorem meets_setAttribute (name : String) (held : v ∈ m₀.held) (heldNew : new ∈ m₀.held) :
    Meets (.within strict m₀) env (setAttribute v name new) m fun _ _ => True := by
  refine .intro fun within => ?_
  have refers := within.refers held
  have heldHere : v ∈ m.held := within.held.symm ▸ held
  have heldNewHere : new ∈ m.held := within.held.symm ▸ heldNew
  unfold setAttribute
  cases v with
  | form h =>
    refine (meets_form fun _ => (Heap.refers_form).mp refers).bind ?_
    rintro f m' _ ⟨rfl, used⟩
    split
    · exact .pure fun _ => trivial
    · rename_i i _
      refine (meets_checkGuard calls f.name name (fun _ g guarded => ?_) heldNewHere).bind
        fun _ m₁ region _ => ?_
      · obtain ⟨e, there, guard⟩ := Option.bind_eq_some_iff.mp guarded
        refine .guard (.form heldHere) used (List.mem_append_left _ ?_)
        exact List.mem_filterMap.mpr ⟨e, List.mem_of_getElem? there, guard⟩
      · refine Meets.bind (meets_editForm (f := (·.setEssence i new))
          (fun _ => (Heap.refers_form).mp (region.refers held)) (fun _ => Form.alike_setEssence)
          (fun form g member _ => ?_) fun form there last w member => ?_)
            fun _ _ _ _ => .pure fun _ => trivial
        · rw [Form.guards_setEssence]
          exact member
        · rcases Form.links_setEssence member with before | rfl
          · exact last.closed.heap h _ there w before
          · exact last.refers heldNew
  | imitation h =>
    refine (meets_imitation fun _ => (Heap.refers_imitation).mp refers).bind ?_
    rintro own m' _ ⟨rfl, made⟩
    refine (meets_form fun _ => within.closed.heap.own made).bind ?_
    rintro f m₁ _ ⟨rfl, used⟩
    split
    · exact .pure fun _ => trivial
    · rename_i i found
      -- What the guard runs may change the imitation, but not which fields it has.
      refine .lift (Meets.bind (meets_checkGuard calls f.name name (fun _ g guarded => ?_)
        heldNewHere) fun _ m₂ later _ => ?_)
      · obtain ⟨field, there, guard⟩ := Option.bind_eq_some_iff.mp guarded
        refine .guard (.imitation heldHere made) used (List.mem_append_right _ ?_)
        exact List.mem_filterMap.mpr ⟨field, List.mem_of_getElem? there, guard⟩
      · refine Meets.bind (meets_editImitation
          (f := fun im => { im with matter := setPadded im.matter i new })
          (fun _ => (Heap.refers_imitation).mp (later.refers heldHere)) (fun _ => rfl)
          (fun im there shaped => ?_) fun im there last => ?_) fun _ _ _ _ => .pure fun _ => trivial
        · rw [setPadded_inside (field_inside later heldHere made used found shaped there),
            Array.size_setIfInBounds]
        · exact refers_setPadded i (fun w member => last.closed.heap.matter there member)
            (last.refers heldNewHere)
  | book h =>
    have edge : ∀ n : Int64, Meets (.within strict m₀) env
        (do indexAssign (.book h) (.numeral n) new; return true) m fun _ _ => True := fun n =>
      (meets_indexAssign calls held (Heap.refers_numeral n) heldNew).bind fun _ _ _ _ =>
        .pure fun _ => trivial
    dsimp only
    split
    · exact edge 1
    · split
      · exact edge (-1)
      · exact .pure fun _ => trivial
  | ni | veracity | numeral | text | journey | codex | other => exact .pure fun _ => trivial

end Assigning

end Run

end JourneyMachine
