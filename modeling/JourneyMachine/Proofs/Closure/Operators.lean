import JourneyMachine.Proofs.Closure.Containers

namespace JourneyMachine.Run

open Machine (Within)

variable {strict : Prop} {R : Region strict} {env : Env} {m m₀ : Machine} {lhs rhs : Value}

theorem meets_cannotApply {α : Type} {Q : α → Machine → Prop} (operator : BinaryOperator)
    (left : strict → m.heap.Refers lhs) (right : strict → m.heap.Refers rhs) :
    Meets R env (cannotApply operator lhs rhs : Run α) m Q := by
  refine (meets_typeName left).bind ?_
  rintro _ m' _ rfl
  refine (meets_typeName right).bind fun _ _ _ _ => meets_complain _

theorem meets_pagePosition (index : Int64) (length : Nat) :
    Meets R env (pagePosition index length) m fun _ m' => m' = m := by
  unfold pagePosition
  split
  · exact meets_complain _
  · generalize (if 0 < index.toInt then index.toInt - 1 else index.toInt + length) = position
    dsimp only
    split
    · exact meets_complain _
    · exact .pure fun _ => rfl

section Calls

variable (calls : env.Calls strict)
include calls

theorem meets_applyChange (operator : BinaryOperator) (left : m.heap.Refers lhs)
    (right : m.heap.Refers rhs) :
    Meets R env (applyChange operator lhs rhs) m fun v m' => m'.heap.Refers v := by
  refine (meets_callChange? calls operator.change [lhs, rhs] (fun _ => left)
    (List.forall_mem_cons.mpr ⟨left, List.forall_mem_singleton.mpr right⟩)).bind ?_
  rintro found m' _ ⟨result, still⟩
  obtain ⟨stillLeft, rest⟩ := List.forall_mem_cons.mp still
  cases found with
  | none =>
    exact meets_cannotApply operator (fun _ => stillLeft)
      fun _ => List.forall_mem_singleton.mp rest
  | some r => exact .pure fun _ => result r rfl

theorem meets_cmp (left : lhs ∈ m₀.held) (right : rhs ∈ m₀.held) :
    Meets (.within strict m₀) env (cmp lhs rhs) m fun _ _ => True := by
  refine .intro fun within => ?_
  have refersLeft := within.refers left
  have refersRight := within.refers right
  unfold cmp
  cases lhs with
  | numeral l =>
    exact (meets_toNumeral calls refersRight).bind fun _ _ _ _ => .pure fun _ => trivial
  | text h =>
    refine (meets_toText calls refersRight).bind fun _ m' region _ => ?_
    exact (meets_text fun _ => (Heap.refers_text).mp (region.refers left)).bind fun _ _ _ _ =>
      .pure fun _ => trivial
  | imitation h =>
    exact (meets_applyChange calls .compare refersLeft refersRight).bind fun _ _ _ refers =>
      meets_toNumeral calls refers
  | ni | veracity | form | journey | book | codex | other =>
    exact meets_cannotApply .compare (fun _ => refersLeft) fun _ => refersRight

theorem meets_not (held : lhs ∈ m₀.held) :
    Meets (.within strict m₀) env (not lhs) m fun v m' => m'.heap.Refers v := by
  refine .intro fun within => ?_
  refine (meets_callChange? calls "!" [lhs] (fun _ => within.refers held)
    (List.forall_mem_singleton.mpr (within.refers held))).bind ?_
  rintro found m' region ⟨result, _⟩
  cases found with
  | none =>
    exact (meets_toVeracity calls (region.refers held)).bind fun _ _ _ _ =>
      .pure fun _ => Heap.refers_veracity _
  | some r => exact .pure fun _ => result r rfl

theorem meets_neg (held : lhs ∈ m₀.held) :
    Meets (.within strict m₀) env (neg lhs) m fun v m' => m'.heap.Refers v := by
  refine .intro fun within => ?_
  unfold neg
  split
  · exact .pure fun _ => Heap.refers_numeral _
  · refine (meets_callChange? calls "-@" [lhs] (fun _ => within.refers held)
      (List.forall_mem_singleton.mpr (within.refers held))).bind ?_
    rintro found m' region ⟨result, _⟩
    cases found with
    | none => exact meets_complain_type fun _ => region.refers held
    | some r => exact .pure fun _ => result r rfl

end Calls

section Pages

variable {source journey : Value} {target : Handle} {pages : List Value}

/-- The pages of a book, the book and a journey are held while a computation runs on the pages. -/
theorem meets_withPages {α : Type} {body : List Value → Run α} {Q : α → Heap → Prop}
    (refersSource : m.heap.Refers source) (refersJourney : m.heap.Refers journey)
    (meets : ∀ pages, (∀ v ∈ source :: journey :: pages, m.heap.Refers v) →
      Meets (.within strict (m.pin (source :: journey :: pages))) env (body pages)
        (m.pin (source :: journey :: pages)) fun a m' => Q a m'.heap) :
    Meets R env (withPages source journey body) m fun a m' => Q a m'.heap := by
  refine (meets_expectHandle .book refersSource).bind ?_
  rintro h m' _ ⟨rfl, holds⟩
  refine (meets_book fun _ => holds).bind ?_
  rintro pages m₁ region ⟨rfl, used⟩
  have refer : ∀ v ∈ source :: journey :: pages.toList, m₁.heap.Refers v :=
    List.forall_mem_cons.mpr ⟨refersSource, List.forall_mem_cons.mpr
      ⟨refersJourney, (R.closed region).heap h _ used⟩⟩
  exact (Meets.withPinned (Q := Q) (fun _ => refer) (meets pages.toList refer)).weaken
    fun _ _ _ post => post.2

/-- A fresh book is filled by a computation. -/
theorem meets_fillBook {fill : Handle → Run Unit}
    (filling : ∀ target m₁, Within strict m₀ m₁ → m₁.heap.Holds .book target →
      Meets (.within strict (m₁.pin [.book target])) env (fill target) (m₁.pin [.book target])
        fun _ _ => True) :
    Meets (.within strict m₀) env (do
      let target ← allocate (.book #[])
      withPinned [.book target] do
        fill target
        return .book target) m fun v m' => m'.heap.Refers v := by
  refine (meets_allocate (o := .book #[]) (by simp [Object.genus])
    (by simp [Object.links])).bind fun target m₁ within placed => ?_
  exact meets_onFresh [] (fun _ => List.forall_mem_singleton.mpr
    ((Heap.refers_book).mpr placed.holds)) (filling target m₁ within placed.holds)

theorem meets_productPages {left right : List Value} (held : .book target ∈ m₀.held)
    (anchored : ∀ w ∈ left ++ right, Anchored m₀ target m.heap w) :
    Meets (.within strict m₀) env (productPages target right left) m fun _ _ => True := by
  induction left generalizing m with
  | nil => exact .pure fun _ => trivial
  | cons a rest ih =>
    refine (meets_pushPairs held fun pair member => ?_).bind fun _ m' _ kept => ?_
    · obtain ⟨b, there, rfl⟩ := List.mem_map.mp member
      exact ⟨anchored a (by simp), anchored b (by simp [there])⟩
    · exact ih fun w member => kept w (anchored w (by
        rw [List.cons_append]
        exact List.mem_cons_of_mem _ member))

variable (calls : env.Calls strict)
include calls

theorem meets_selectPages (heldJourney : journey ∈ m₀.held) (held : .book target ∈ m₀.held)
    (heldPages : ∀ page ∈ pages, page ∈ m₀.held) :
    Meets (.within strict m₀) env (selectPages journey target pages) m fun _ _ => True := by
  induction pages generalizing m with
  | nil => exact .pure fun _ => trivial
  | cons page rest ih =>
    refine .intro fun within => ?_
    have heldPage := heldPages page (List.mem_cons_self ..)
    have later : ∀ m', Meets (.within strict m₀) env (selectPages journey target rest) m'
        fun _ _ => True := fun m' => ih fun p member => heldPages p (List.mem_cons_of_mem _ member)
    refine (meets_call calls (List.forall_mem_cons.mpr ⟨within.refers heldJourney,
      List.forall_mem_singleton.mpr (within.refers heldPage)⟩)).bind fun keep m₁ _ post => ?_
    refine (meets_toVeracity calls post.1).bind fun wanted m₂ region _ => ?_
    cases wanted with
    | true => exact (meets_push held (region.refers heldPage)).bind fun _ m₃ _ _ => later m₃
    | false => exact later m₂

theorem meets_mapPages (heldJourney : journey ∈ m₀.held) (held : .book target ∈ m₀.held)
    (heldPages : ∀ page ∈ pages, page ∈ m₀.held) :
    Meets (.within strict m₀) env (mapPages journey target pages) m fun _ _ => True := by
  induction pages generalizing m with
  | nil => exact .pure fun _ => trivial
  | cons page rest ih =>
    refine .intro fun within => ?_
    have heldPage := heldPages page (List.mem_cons_self ..)
    refine (meets_call calls (List.forall_mem_cons.mpr ⟨within.refers heldJourney,
      List.forall_mem_singleton.mpr (within.refers heldPage)⟩)).bind fun mapped m₁ _ post => ?_
    exact (meets_push held post.1).bind fun _ _ _ _ =>
      ih fun p member => heldPages p (List.mem_cons_of_mem _ member)

theorem meets_reducePages {accumulator : Value} (heldJourney : journey ∈ m₀.held)
    (heldPages : ∀ page ∈ pages, page ∈ m₀.held) (refers : m.heap.Refers accumulator) :
    Meets (.within strict m₀) env (reducePages journey accumulator pages) m
      fun v m' => m'.heap.Refers v := by
  induction pages generalizing m accumulator with
  | nil => exact .pure fun _ => refers
  | cons page rest ih =>
    refine .intro fun within => ?_
    have heldPage := heldPages page (List.mem_cons_self ..)
    refine (Meets.withPinned (Q := fun v heap => heap.Refers v)
      (fun _ => List.forall_mem_singleton.mpr refers)
      ((meets_call calls (m := m.pin [accumulator]) (List.forall_mem_cons.mpr
        ⟨within.refers heldJourney, List.forall_mem_cons.mpr ⟨refers,
          List.forall_mem_singleton.mpr (within.refers heldPage)⟩⟩)).weaken
            fun _ _ _ post => post.1)).bind fun next m₁ _ post => ?_
    exact ih (fun p member => heldPages p (List.mem_cons_of_mem _ member)) post.2

theorem meets_bookSelect (refersSource : m.heap.Refers source)
    (refersJourney : m.heap.Refers journey) :
    Meets R env (bookSelect source journey) m fun v m' => m'.heap.Refers v := by
  refine meets_withPages (Q := fun v heap => heap.Refers v) refersSource refersJourney
    fun pages _ => meets_fillBook fun target m₁ within _ => ?_
  have held : ∀ v ∈ source :: journey :: pages, v ∈ (m₁.pin [.book target]).held :=
    fun v member => Machine.held_pin (within.held.symm ▸ Machine.held_pinned member)
  exact meets_selectPages calls (held journey (by simp)) (Machine.held_pinned (by simp))
    fun page member => held page (by simp [member])

theorem meets_bookMap (refersSource : m.heap.Refers source)
    (refersJourney : m.heap.Refers journey) :
    Meets R env (bookMap source journey) m fun v m' => m'.heap.Refers v := by
  refine meets_withPages (Q := fun v heap => heap.Refers v) refersSource refersJourney
    fun pages _ => meets_fillBook fun target m₁ within _ => ?_
  have held : ∀ v ∈ source :: journey :: pages, v ∈ (m₁.pin [.book target]).held :=
    fun v member => Machine.held_pin (within.held.symm ▸ Machine.held_pinned member)
  exact meets_mapPages calls (held journey (by simp)) (Machine.held_pinned (by simp))
    fun page member => held page (by simp [member])

theorem meets_bookReduce (refersSource : m.heap.Refers source)
    (refersJourney : m.heap.Refers journey) :
    Meets R env (bookReduce source journey) m fun v m' => m'.heap.Refers v := by
  refine meets_withPages (Q := fun v heap => heap.Refers v) refersSource refersJourney
    fun pages refer => ?_
  cases pages with
  | nil => exact .pure fun _ => Heap.refers_ni
  | cons first rest =>
    exact meets_reducePages calls (Machine.held_pinned (by simp))
      (fun page member => Machine.held_pinned (by simp [member])) (refer first (by simp))

theorem meets_bookJoin {separator : Value} (refersSource : m.heap.Refers source)
    (refersSeparator : m.heap.Refers separator) :
    Meets R env (bookJoin source separator) m fun v m' => m'.heap.Refers v := by
  refine (meets_expectHandle .text refersSeparator).bind ?_
  rintro h m' _ ⟨rfl, holds⟩
  refine (meets_text fun _ => holds).bind ?_
  rintro between m₁ _ ⟨rfl, _⟩
  refine (meets_withPages (Q := fun _ _ => True) refersSource Heap.refers_ni fun pages _ =>
    .mapM fun page member m₂ => .intro fun within => ?_).bind fun _ _ _ _ => meets_newText _
  exact meets_toText calls (within.refers (Machine.held_pinned (by simp [member])))

end Pages

theorem meets_bookProduct (left : lhs ∈ m₀.held) (right : rhs ∈ m₀.held) :
    Meets (.within strict m₀) env (bookProduct lhs rhs) m fun v m' => m'.heap.Refers v := by
  refine .intro fun within => ?_
  refine (expectHandle_found .book (within.refers left)).bind ?_
  rintro l m' _ ⟨rfl, holdsLeft, foundLeft, _⟩
  refine (meets_book fun _ => holdsLeft).bind ?_
  rintro first m₁ _ ⟨rfl, usedLeft⟩
  refine (expectHandle_found .book (within.refers right)).bind ?_
  rintro r m₂ _ ⟨rfl, holdsRight, foundRight, _⟩
  refine (meets_book fun _ => holdsRight).bind ?_
  rintro second m₃ region ⟨rfl, usedRight⟩
  dsimp only
  split
  · exact meets_complain _
  · refine (meets_allocate (o := .book #[]) (by simp [Object.genus])
      (by simp [Object.links])).bind fun target m₄ later placed => ?_
    obtain ⟨sameLeft, otherLeft⟩ := placed.held region.closed (region.held.symm ▸ left) foundLeft
    obtain ⟨sameRight, otherRight⟩ :=
      placed.held region.closed (region.held.symm ▸ right) foundRight
    refine meets_onFresh [lhs, rhs] (fun _ => List.forall_mem_cons.mpr
      ⟨(Heap.refers_book).mpr placed.holds, List.forall_mem_cons.mpr ⟨later.refers left,
        List.forall_mem_singleton.mpr (later.refers right)⟩⟩)
      (meets_productPages (Machine.held_pinned (by simp)) fun w member => ?_)
    rcases List.mem_append.mp member with one | other
    · exact ⟨lhs, l, _, Machine.held_pinned (by simp), foundLeft, otherLeft,
        sameLeft.trans usedLeft, one⟩
    · exact ⟨rhs, r, _, Machine.held_pinned (by simp), foundRight, otherRight,
        sameRight.trans usedRight, other⟩

section Arithmetic

variable (calls : env.Calls strict) (left : lhs ∈ m₀.held) (right : rhs ∈ m₀.held)
include calls left right

theorem meets_add : Meets (.within strict m₀) env (add lhs rhs) m fun v m' => m'.heap.Refers v := by
  refine .intro fun within => ?_
  have refersLeft := within.refers left
  have refersRight := within.refers right
  unfold add
  split
  · refine (meets_toText calls refersLeft).bind fun first m' region _ => ?_
    exact (meets_text fun _ => (Heap.refers_text).mp (region.refers right)).bind fun _ _ _ _ =>
      meets_newText _
  · exact (meets_toNumeral calls refersRight).bind fun _ _ _ _ =>
      .pure fun _ => Heap.refers_numeral _
  · refine (meets_toText calls refersRight).bind fun second m' region _ => ?_
    exact (meets_text fun _ => (Heap.refers_text).mp (region.refers left)).bind fun _ _ _ _ =>
      meets_newText _
  · exact meets_bookSelect calls refersLeft refersRight
  · rename_i h _ _
    refine (Meets.withPinned (Q := fun v heap => heap.Refers v)
      (fun _ => List.forall_mem_singleton.mpr refersLeft)
      (meets_toBook calls (Machine.held_pin (within.held.symm ▸ right)))).bind
        fun second m₁ region post => ?_
    refine (meets_book fun _ => (Heap.refers_book).mp (region.refers left)).bind ?_
    rintro pages m₂ _ ⟨rfl, used⟩
    refine (meets_expectHandle .book post.2).bind ?_
    rintro k m₃ _ ⟨rfl, holds⟩
    refine (meets_book fun _ => holds).bind ?_
    rintro more m₄ final ⟨rfl, usedMore⟩
    refine (Meets.withPinned (Q := fun v heap => heap.Refers v) (fun _ => List.forall_mem_cons.mpr
      ⟨final.refers left, List.forall_mem_singleton.mpr post.2⟩)
      (meets_newBook fun _ v member => ?_)).weaken fun _ _ _ post => post.2
    rw [Array.toList_append] at member
    rcases List.mem_append.mp member with one | other
    · exact final.closed.heap h _ used v one
    · exact final.closed.heap k _ usedMore v other
  · exact meets_applyChange calls .add refersLeft refersRight

theorem meets_sub : Meets (.within strict m₀) env (sub lhs rhs) m fun v m' => m'.heap.Refers v := by
  refine .intro fun within => ?_
  unfold sub
  split
  · exact (meets_toNumeral calls (within.refers right)).bind fun _ _ _ _ =>
      .pure fun _ => Heap.refers_numeral _
  · exact meets_applyChange calls .subtract (within.refers left) (within.refers right)

theorem meets_mul : Meets (.within strict m₀) env (mul lhs rhs) m fun v m' => m'.heap.Refers v := by
  refine .intro fun within => ?_
  have refersLeft := within.refers left
  have refersRight := within.refers right
  unfold mul
  split
  · exact (meets_toNumeral calls refersRight).bind fun _ _ _ _ =>
      .pure fun _ => Heap.refers_numeral _
  · refine (meets_toNumeral calls refersRight).bind fun amount m' region _ => ?_
    refine (meets_text fun _ => (Heap.refers_text).mp (region.refers left)).bind
      fun content _ _ _ => ?_
    split
    · exact meets_newText _
    · exact meets_complain _
  · rename_i h
    split
    · refine (meets_book fun _ => (Heap.refers_book).mp refersLeft).bind ?_
      rintro pages m' region ⟨rfl, used⟩
      split
      · refine meets_newBook fun _ v member => region.closed.heap h _ used v ?_
        simp only [Array.mem_toList_iff, Array.mem_flatten, Array.mem_replicate] at member
        obtain ⟨copy, ⟨_, rfl⟩, inside⟩ := member
        exact Array.mem_toList_iff.mpr inside
      · exact meets_complain _
    · exact meets_bookJoin calls refersLeft refersRight
    · exact meets_bookProduct left right
    · exact meets_bookMap calls refersLeft refersRight
    · exact meets_cannotApply .multiply (fun _ => refersLeft) fun _ => refersRight
  · exact meets_applyChange calls .multiply refersLeft refersRight

theorem meets_div : Meets (.within strict m₀) env (div lhs rhs) m fun v m' => m'.heap.Refers v := by
  refine .intro fun within => ?_
  unfold div
  split
  · refine (meets_toNumeral calls (within.refers right)).bind fun r _ _ _ => ?_
    split
    · exact meets_complain _
    · exact .pure fun _ => Heap.refers_numeral _
  · exact meets_applyChange calls .divide (within.refers left) (within.refers right)

theorem meets_rem : Meets (.within strict m₀) env (rem lhs rhs) m fun v m' => m'.heap.Refers v := by
  refine .intro fun within => ?_
  unfold rem
  split
  · refine (meets_toNumeral calls (within.refers right)).bind fun r _ _ _ => ?_
    split
    · exact meets_complain _
    · exact .pure fun _ => Heap.refers_numeral _
  · exact meets_bookReduce calls (within.refers left) (within.refers right)
  · exact meets_applyChange calls .modulo (within.refers left) (within.refers right)

theorem meets_pow : Meets (.within strict m₀) env (pow lhs rhs) m fun v m' => m'.heap.Refers v := by
  refine .intro fun within => ?_
  unfold pow
  split
  · exact (meets_toNumeral calls (within.refers right)).bind fun _ _ _ _ =>
      .pure fun _ => Heap.refers_numeral _
  · exact meets_applyChange calls .exponentiate (within.refers left) (within.refers right)

end Arithmetic

section Indexing

variable {container key new : Value}

theorem meets_growBook {h : Handle} (held : .book h ∈ m₀.held) (length : Nat) :
    Meets (.within strict m₀) env (growBook h length) m fun _ m' =>
      ∀ v, m.heap.Refers v → m'.heap.Refers v := by
  refine .intro fun within => ?_
  have holds := (Heap.refers_book).mp (within.refers held)
  refine (meets_book fun _ => holds).bind ?_
  rintro pages m' _ ⟨rfl, _⟩
  dsimp only
  split
  · exact .pure fun _ _ refers => refers
  · split
    · exact meets_complain _
    · refine (meets_editBook (fun _ => holds) fun pages used region v member => ?_).weaken
        fun _ _ _ post => post.choose_spec.2.refers
      rw [Array.toList_append, Array.toList_replicate] at member
      rcases List.mem_append.mp member with before | filler
      · exact region.closed.heap h _ used v before
      · rw [List.eq_of_mem_replicate filler]
        exact Heap.refers_ni

variable (calls : env.Calls strict) (heldContainer : container ∈ m₀.held)
  (refersKey : m.heap.Refers key)
include calls heldContainer refersKey

theorem meets_index :
    Meets (.within strict m₀) env (index container key) m fun v m' => m'.heap.Refers v := by
  refine .intro fun within => ?_
  have refersContainer := within.refers heldContainer
  unfold index
  split
  · rename_i h
    refine (meets_toNumeral calls refersKey).bind fun i m' region _ => ?_
    split
    · exact meets_complain _
    · refine (meets_text fun _ => (Heap.refers_text).mp (region.refers heldContainer)).bind
        fun content _ _ _ => ?_
      dsimp only
      generalize (if 0 < i.toInt then i.toInt - 1 else i.toInt + content.toList.length) = position
      split
      · exact .pure fun _ => Heap.refers_ni
      · split
        · exact meets_newText _
        · exact .pure fun _ => Heap.refers_ni
  · rename_i h
    refine (meets_toNumeral calls refersKey).bind fun i m' region _ => ?_
    refine (meets_book fun _ => (Heap.refers_book).mp (region.refers heldContainer)).bind ?_
    rintro pages m₁ _ ⟨rfl, used⟩
    refine (meets_pagePosition i pages.size).bind ?_
    rintro position m₂ _ rfl
    refine (meets_book fun _ => ⟨_, used, rfl⟩).bind ?_
    rintro again m₃ final ⟨rfl, still⟩
    exact .pure fun _ => Heap.refers_getD (final.closed.heap h _ still) position
  · exact (meets_codexLookup? calls (fun _ => (Heap.refers_codex).mp refersContainer)
      refersKey).bind fun _ _ _ post => .pure fun _ => post
  · refine (meets_callChange? calls "[]" [container, key] (fun _ => refersContainer)
      (List.forall_mem_cons.mpr ⟨refersContainer, List.forall_mem_singleton.mpr refersKey⟩)).bind ?_
    rintro found m' region ⟨result, _⟩
    cases found with
    | none => exact meets_complain_type fun _ => region.refers heldContainer
    | some r => exact .pure fun _ => result r rfl

theorem meets_indexAssign (heldNew : new ∈ m₀.held) :
    Meets (.within strict m₀) env (indexAssign container key new) m fun _ _ => True := by
  refine .intro fun within => ?_
  have refersContainer := within.refers heldContainer
  unfold indexAssign
  split
  · rename_i h
    refine (meets_toNumeral calls refersKey).bind fun i m' region _ => ?_
    refine (meets_book fun _ => (Heap.refers_book).mp (region.refers heldContainer)).bind ?_
    rintro pages m₁ _ ⟨rfl, _⟩
    refine (meets_pagePosition i pages.size).bind ?_
    rintro position m₂ _ rfl
    refine (meets_growBook heldContainer (position + 1)).bind fun _ m₃ grown _ => ?_
    refine (meets_editBook (fun _ => (Heap.refers_book).mp (grown.refers heldContainer))
      fun pages used last v member => ?_).weaken fun _ _ _ _ => trivial
    rw [Array.toList_setIfInBounds] at member
    rcases List.mem_or_eq_of_mem_set member with before | rfl
    · exact last.closed.heap h _ used v before
    · exact last.refers heldNew
  · exact meets_codexInsert calls heldContainer refersKey (within.refers heldNew)
  · refine (meets_callChange? calls "[]=" [container, key, new] (fun _ => refersContainer)
      (List.forall_mem_cons.mpr ⟨refersContainer,
        List.forall_mem_cons.mpr ⟨refersKey,
          List.forall_mem_singleton.mpr (within.refers heldNew)⟩⟩)).bind ?_
    rintro found m' region _
    cases found with
    | none => exact meets_complain_type fun _ => region.refers heldContainer
    | some r => exact .pure fun _ => trivial

theorem meets_insertPage (heldNew : new ∈ m₀.held) :
    Meets (.within strict m₀) env (insertPage container key new) m fun _ _ => True := by
  refine .intro fun within => ?_
  unfold insertPage
  split
  · rename_i h
    refine (meets_toNumeral calls refersKey).bind fun i m' region _ => ?_
    refine (meets_book fun _ => (Heap.refers_book).mp (region.refers heldContainer)).bind ?_
    rintro pages m₁ _ ⟨rfl, _⟩
    refine (meets_pagePosition i _).bind ?_
    rintro position m₂ _ rfl
    refine (meets_growBook heldContainer position).bind fun _ m₃ grown _ => ?_
    refine (meets_editBook (fun _ => (Heap.refers_book).mp (grown.refers heldContainer))
      fun pages used last v member => ?_).weaken fun _ _ _ _ => trivial
    unfold Array.insertIdxIfInBounds at member
    split at member
    · rename_i inside
      have there := Array.mem_toList_iff.mp member
      rcases (Array.mem_insertIdx (h := inside)).mp there with rfl | before
      · exact last.refers heldNew
      · exact last.closed.heap h _ used v (Array.mem_toList_iff.mpr before)
    · exact last.closed.heap h _ used v member
  · exact meets_complain _

theorem meets_delete :
    Meets (.within strict m₀) env (delete container key) m fun v m' => m'.heap.Refers v := by
  refine .intro fun within => ?_
  unfold delete
  split
  · rename_i h
    refine (meets_toNumeral calls refersKey).bind fun i m' region _ => ?_
    refine (meets_book fun _ => (Heap.refers_book).mp (region.refers heldContainer)).bind ?_
    rintro pages m₁ _ ⟨rfl, used⟩
    refine (meets_pagePosition i pages.size).bind ?_
    rintro position m₂ _ rfl
    refine (meets_book fun _ => ⟨_, used, rfl⟩).bind ?_
    rintro again m₃ final ⟨rfl, still⟩
    have page := Heap.refers_getD (final.closed.heap h _ still) position
    refine (meets_editBook (fun _ => ⟨_, used, rfl⟩) fun pages there last v member => ?_).bind ?_
    · refine last.closed.heap h _ there v ?_
      unfold Array.eraseIdxIfInBounds at member
      split at member
      · rename_i inside
        exact Array.mem_toList_iff.mpr (Array.mem_of_mem_eraseIdx (Array.mem_toList_iff.mp member))
      · exact member
    · rintro _ m₄ _ ⟨_, _, edited⟩
      exact .pure fun _ => edited.refers _ page
  · exact (meets_codexRemove? calls heldContainer refersKey).bind
      fun _ _ _ post => .pure fun _ => post
  · exact meets_complain _

omit refersKey in
theorem meets_substr (heldKey : key ∈ m₀.held) (heldNew : new ∈ m₀.held) :
    Meets (.within strict m₀) env (substr container key new) m fun v m' => m'.heap.Refers v := by
  refine .intro fun within => ?_
  refine (meets_toText calls (within.refers heldContainer)).bind fun content m₁ first _ => ?_
  refine (meets_toNumeral calls (first.refers heldKey)).bind fun start m₂ second _ => ?_
  split
  · exact meets_complain _
  · exact (meets_toNumeral calls (second.refers heldNew)).bind fun _ _ _ _ => meets_newText _

end Indexing

theorem meets_ascii {v : Value} (refers : m.heap.Refers v) :
    Meets R env (ascii v) m fun r m' => m'.heap.Refers r := by
  unfold ascii
  split
  · exact meets_newText _
  · exact (meets_text fun _ => (Heap.refers_text).mp refers).bind fun _ _ _ _ =>
      .pure fun _ => Heap.refers_numeral _
  · exact meets_complain_type fun _ => refers

end JourneyMachine.Run
