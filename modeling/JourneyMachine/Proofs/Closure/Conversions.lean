import JourneyMachine.Proofs.Closure.Lookups

namespace JourneyMachine

open Machine (Within)

/-- What computations rely on when they call a value. A journey that is not there any more is found
out before anything is done with it. -/
structure Env.Calls (strict : Prop) (env : Env) : Prop where
  meets : ∀ {m : Machine} {callee : Value} (args : Arguments),
    (∀ v ∈ callee :: args.values, m.heap.Refers v) →
    Run.Meets (.within strict m) env (fun _ => env.call callee args) m fun v m' =>
      m'.heap.Refers v ∧ ∀ w ∈ callee :: args.values, m'.heap.Refers w
  stale : ∀ {m : Machine} {h : Handle} (args : Arguments), ¬ m.heap.Holds .journey h →
    ∃ fault, ∀ n,
      env.call (.journey h) args (m.withBudget n) = .error (.fatal fault) (m.withBudget n)

namespace Run

variable {strict : Prop} {R : Region strict} {env : Env} {m : Machine} {v : Value}

theorem meets_typeName (refers : strict → m.heap.Refers v) :
    Meets R env (typeName v) m fun _ m' => m' = m :=
  (Meets.looks fun holds => Heap.gives_typeName (R.closed holds).heap refers).weaken
    fun _ _ _ post => post.1

theorem meets_changeOf? (name : String) (refers : strict → m.heap.Refers v) :
    Meets R env (changeOf? v name) m fun found m' =>
      m' = m ∧ ∀ c, found = some c → m.heap.Holds .journey c :=
  .looks fun holds => Heap.gives_changeOf? (R.closed holds).heap name refers

theorem meets_complain_type {α : Type} {Q : α → Machine → Prop} {complaint : String → Complaint}
    (refers : strict → m.heap.Refers v) :
    Meets R env (do complain (complaint (← typeName v)) : Run α) m Q :=
  (meets_typeName refers).bind fun _ _ _ _ => meets_complain _

theorem meets_cannotConvert {α : Type} {Q : α → Machine → Prop} (target : String)
    (refers : strict → m.heap.Refers v) : Meets R env (cannotConvert v target : Run α) m Q :=
  meets_complain_type refers

theorem expectHandle_found (genus : Genus) (refers : m.heap.Refers v) :
    Meets R env (ofExcept (v.expectHandle genus)) m fun h m' =>
      m' = m ∧ m.heap.Holds genus h ∧ v.handle? = some h ∧ v.genus = genus := by
  unfold Value.expectHandle
  split
  · rename_i h found
    split
    · rename_i same
      exact .pure fun _ => ⟨rfl, same ▸ refers h found, found, same⟩
    · exact .fail fun _ _ => by simp
  · exact .fail fun _ _ => by simp

theorem meets_expectHandle (genus : Genus) (refers : m.heap.Refers v) :
    Meets R env (ofExcept (v.expectHandle genus)) m fun h m' =>
      m' = m ∧ m.heap.Holds genus h :=
  (expectHandle_found genus refers).weaken fun _ _ _ post => ⟨post.1, post.2.1⟩

theorem meets_expectNumeral (v : Value) :
    Meets R env (ofExcept v.expectNumeral) m fun _ m' => m' = m := by
  cases v with
  | numeral n => exact .pure fun _ => rfl
  | _ => exact .fail fun _ _ => by simp

section Calls

variable (calls : env.Calls strict)
include calls

theorem meets_call {callee : Value} {args : List Value}
    (refer : ∀ w ∈ callee :: args, m.heap.Refers w) :
    Meets R env (call callee args) m fun v m' =>
      m'.heap.Refers v ∧ ∀ w ∈ callee :: args, m'.heap.Refers w := by
  have positional : callee :: (Arguments.ofList args).values = callee :: args := by
    simp [Arguments.values, Arguments.ofList]
  have meets := (calls.meets (.ofList args) (positional.symm ▸ refer)).lift (R := R)
  rw [positional] at meets
  exact meets

theorem meets_callChange? {receiver : Value} (name : String) (args : List Value)
    (refers : strict → m.heap.Refers receiver) (refer : ∀ w ∈ args, m.heap.Refers w) :
    Meets R env (callChange? receiver name args) m fun found m' =>
      (∀ v, found = some v → m'.heap.Refers v) ∧ ∀ w ∈ args, m'.heap.Refers w := by
  refine (meets_changeOf? name refers).bind ?_
  rintro found m' _ ⟨rfl, own⟩
  cases found with
  | none => exact .pure fun _ => ⟨(fun _ same => by cases same), refer⟩
  | some change =>
    refine (meets_call calls ?_).bind fun result m₁ _ post => .pure fun _ => ⟨?_, ?_⟩
    · intro w member
      rcases List.mem_cons.mp member with rfl | arg
      · exact (Heap.refers_journey).mpr (own change rfl)
      · exact refer w arg
    · rintro v ⟨⟩
      exact post.1
    · exact fun w member => post.2 w (List.mem_cons_of_mem _ member)

theorem meets_convertBy? (change : String) (expected : Genus) (refers : m.heap.Refers v) :
    Meets R env (convertBy? v change expected) m fun found m' =>
      (∀ r, found = some r → m'.heap.Refers r ∧ r.genus = expected) ∧ m'.heap.Refers v := by
  refine (meets_callChange? calls change [v] (fun _ => refers) (by simpa)).bind ?_
  rintro found m' _ ⟨result, still⟩
  have kept : m'.heap.Refers v := still v (List.mem_singleton_self v)
  cases found with
  | none => exact .pure fun _ => ⟨(fun _ same => by cases same), kept⟩
  | some r =>
    dsimp only
    split
    · rename_i genus
      refine .pure fun _ => ⟨?_, kept⟩
      rintro _ ⟨⟩
      exact ⟨result r rfl, genus⟩
    · exact meets_complain_type fun _ => kept

theorem meets_textWithin (room : Nat) {path : List Handle}
    (around : strict → Heap.Around m.heap.capacity room path) (refers : m.heap.Refers v) :
    Meets R env (textWithin room path v) m fun _ _ => True := by
  -- On the rounds: where they run out, the path would hold every slot of the heap and one more.
  induction room using Nat.strong_induction_on generalizing path v m R with
  | _ room ih =>
    have inside : ∀ h, v.handle? = some h → h.slot < m.heap.capacity :=
      fun h found => (refers h found).lt_capacity
    unfold textWithin
    cases v with
    | ni | veracity | numeral => exact .pure fun _ => trivial
    | text h => exact (meets_text fun _ => (Heap.refers_text).mp refers).weaken fun _ _ _ _ => trivial
    | form h =>
      exact (meets_form fun _ => (Heap.refers_form).mp refers).bind fun _ _ _ _ =>
        .pure fun _ => trivial
    | other h =>
      exact (meets_other fun _ => (Heap.refers_other).mp refers).bind fun _ _ _ _ =>
        .pure fun _ => trivial
    | book h =>
      dsimp only
      split
      · exact .pure fun _ => trivial
      · rename_i fresh
        cases room with
        | zero =>
          exact .fail fun assumed => ((around assumed).room_left fresh (inside h rfl)).elim
        | succ room =>
          refine (meets_book fun _ => (Heap.refers_book).mp refers).bind ?_
          rintro pages m' holds ⟨rfl, used⟩
          refine (Meets.withPinned (Q := fun _ _ => True)
            (fun _ => (R.closed holds).heap h _ used) (.mapM fun page member m₁ => ?_)).bind
              fun _ _ _ _ => .pure fun _ => trivial
          refine .intro fun within => ih room (Nat.lt_succ_self room) (fun assumed => ?_)
            (within.refers (Machine.held_pinned member))
          rw [within.evolves.capacity]
          exact (around assumed).cons fresh (inside h rfl)
    | codex h =>
      dsimp only
      split
      · exact .pure fun _ => trivial
      · rename_i fresh
        cases room with
        | zero =>
          exact .fail fun assumed => ((around assumed).room_left fresh (inside h rfl)).elim
        | succ room =>
          refine (meets_codex fun _ => (Heap.refers_codex).mp refers).bind ?_
          rintro entries m' holds ⟨rfl, used⟩
          refine (Meets.withPinned (Q := fun _ _ => True)
            (fun _ => (R.closed holds).heap h _ used) (.mapM fun entry member m₁ => ?_)).bind
              fun _ _ _ _ => .pure fun _ => trivial
          have each : ∀ w ∈ [entry.1, entry.2], ∀ m₂,
              Meets (.within strict (m'.pin (Object.codex entries).links)) env
                (textWithin room (h :: path) w) m₂ fun _ _ => True := by
            intro w part m₂
            refine .intro fun within => ih room (Nat.lt_succ_self room) (fun assumed => ?_)
              (within.refers (Machine.held_pinned (Object.links_entry member part)))
            rw [within.evolves.capacity]
            exact (around assumed).cons fresh (inside h rfl)
          refine (each entry.1 (by simp) m₁).bind fun key m₂ _ _ => ?_
          exact (each entry.2 (by simp) m₂).bind fun value _ _ _ => .pure fun _ => trivial
    | imitation h =>
      refine (meets_convertBy? calls "to_text" .text refers).bind ?_
      rintro found m' _ ⟨result, kept⟩
      cases found with
      | none => exact meets_cannotConvert "text" fun _ => kept
      | some r =>
        obtain ⟨refer, _⟩ := result r rfl
        refine (meets_expectHandle .text refer).bind ?_
        rintro t m₁ _ ⟨rfl, holds⟩
        exact (meets_text fun _ => holds).weaken fun _ _ _ _ => trivial
    | journey h => exact meets_cannotConvert "text" fun _ => refers

theorem meets_toText (refers : m.heap.Refers v) : Meets R env (toText v) m fun _ _ => True :=
  .get (fun _ => rfl) (meets_textWithin calls _ (fun _ => Heap.around_nil _) refers)

theorem meets_toTextValue (refers : m.heap.Refers v) :
    Meets R env (toTextValue v) m fun r m' => m'.heap.Refers r := by
  unfold toTextValue
  split
  · exact .pure fun _ => refers
  · exact (meets_toText calls refers).bind fun content _ _ _ => meets_newText content

/-- The numeral by a change, or else a complaint. -/
theorem meets_numeralBy (change : String) {otherwise : Run Int64} (refers : m.heap.Refers v)
    (instead : ∀ m', m'.heap.Refers v → Meets R env otherwise m' fun _ _ => True) :
    Meets R env (do
      match ← convertBy? v change .numeral with
      | some result => ofExcept result.expectNumeral
      | none => otherwise) m fun _ _ => True := by
  refine (meets_convertBy? calls change .numeral refers).bind ?_
  rintro found m' _ ⟨_, kept⟩
  cases found with
  | none => exact instead m' kept
  | some r => exact (meets_expectNumeral r).weaken fun _ _ _ _ => trivial

theorem meets_toNumeral (refers : m.heap.Refers v) :
    Meets R env (toNumeral v) m fun _ _ => True := by
  unfold toNumeral
  cases v with
  | ni | veracity | numeral => exact .pure fun _ => trivial
  | text h =>
    exact (meets_text fun _ => (Heap.refers_text).mp refers).bind fun _ _ _ _ =>
      .pure fun _ => trivial
  | book h =>
    exact (meets_book fun _ => (Heap.refers_book).mp refers).bind fun _ _ _ _ =>
      .pure fun _ => trivial
  | codex h =>
    exact (meets_codex fun _ => (Heap.refers_codex).mp refers).bind fun _ _ _ _ =>
      .pure fun _ => trivial
  | imitation h =>
    exact meets_numeralBy calls "to_numeral" refers fun _ kept =>
      meets_cannotConvert "numeral" fun _ => kept
  | form | journey | other => exact meets_cannotConvert "numeral" fun _ => refers

theorem meets_toVeracity (refers : m.heap.Refers v) :
    Meets R env (toVeracity v) m fun _ _ => True := by
  unfold toVeracity
  cases v with
  | ni | veracity | numeral => exact .pure fun _ => trivial
  | text h =>
    exact (meets_text fun _ => (Heap.refers_text).mp refers).bind fun _ _ _ _ =>
      .pure fun _ => trivial
  | book h =>
    exact (meets_book fun _ => (Heap.refers_book).mp refers).bind fun _ _ _ _ =>
      .pure fun _ => trivial
  | codex h =>
    exact (meets_codex fun _ => (Heap.refers_codex).mp refers).bind fun _ _ _ _ =>
      .pure fun _ => trivial
  | imitation h =>
    refine (meets_convertBy? calls "to_veracity" .veracity refers).bind ?_
    rintro found m' _ ⟨_, kept⟩
    cases found with
    | none => exact meets_cannotConvert "veracity" fun _ => kept
    | some r => exact .pure fun _ => trivial
  | form | journey | other => exact meets_cannotConvert "veracity" fun _ => refers

theorem meets_length (refers : m.heap.Refers v) : Meets R env (length v) m fun _ _ => True := by
  unfold length
  cases v with
  | text h =>
    exact (meets_text fun _ => (Heap.refers_text).mp refers).bind fun _ _ _ _ =>
      .pure fun _ => trivial
  | book h =>
    exact (meets_book fun _ => (Heap.refers_book).mp refers).bind fun _ _ _ _ =>
      .pure fun _ => trivial
  | codex h =>
    exact (meets_codex fun _ => (Heap.refers_codex).mp refers).bind fun _ _ _ _ =>
      .pure fun _ => trivial
  | imitation h =>
    exact meets_numeralBy calls "length" refers fun _ kept => meets_complain_type fun _ => kept
  | ni | veracity | numeral | form | journey | other =>
    exact meets_complain_type fun _ => refers

end Calls

theorem meets_genusOf (refers : m.heap.Refers v) :
    Meets R env (genusOf v) m fun r m' => m'.heap.Refers r := by
  unfold genusOf
  cases v with
  | imitation h =>
    refine (meets_imitation fun _ => (Heap.refers_imitation).mp refers).bind ?_
    rintro i m' holds ⟨rfl, used⟩
    exact .pure fun _ => (Heap.refers_form).mpr ((R.closed holds).heap.own used)
  | other h => exact .get (fun _ => rfl) (meets_newText _)
  | ni | veracity | numeral | text | form | journey | book | codex => exact meets_newText _

end Run

end JourneyMachine
