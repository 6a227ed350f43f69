import JourneyMachine.Proofs.Closure.Attributes
import JourneyMachine.Proofs.Seclusion.Conversions

namespace JourneyMachine

section Pages

variable {s : Handle} {pages : Array Value} {v : Value}

theorem avoids_padded (avoids : (Object.book pages).Avoids s) (count : Nat) :
    (Object.book (pages ++ Array.replicate count .ni)).Avoids s := by
  intro w member
  simp only [Object.links, Array.toList_append, Array.toList_replicate] at member
  rcases List.mem_append.mp member with before | filler
  · exact avoids w before
  · rw [List.eq_of_mem_replicate filler]
    exact Value.avoids_ni

theorem avoids_setIfInBounds (avoids : (Object.book pages).Avoids s) (i : Nat) (new : v.Avoids s) :
    (Object.book (pages.setIfInBounds i v)).Avoids s := by
  intro w member
  simp only [Object.links, Array.toList_setIfInBounds] at member
  rcases List.mem_or_eq_of_mem_set member with before | rfl
  · exact avoids w before
  · exact new

theorem avoids_insertIdx (avoids : (Object.book pages).Avoids s) (i : Nat) (new : v.Avoids s) :
    (Object.book (pages.insertIdxIfInBounds i v)).Avoids s := by
  intro w member
  simp only [Object.links, Array.insertIdxIfInBounds] at member
  split at member
  · rw [Array.toList_insertIdx] at member
    rcases List.eq_or_mem_of_mem_insertIdx member with rfl | before
    · exact new
    · exact avoids w before
  · exact avoids w member

theorem avoids_eraseIdx (avoids : (Object.book pages).Avoids s) (i : Nat) :
    (Object.book (pages.eraseIdxIfInBounds i)).Avoids s := by
  intro w member
  simp only [Object.links, Array.toList_eraseIdxIfInBounds] at member
  exact avoids w (List.mem_of_mem_eraseIdx member)

end Pages

namespace Run

open Host (Exchange Platform)

variable {α : Type} {s h : Handle} {env : Env} {P : α → Prop}

theorem spares_cannotApply (operator : BinaryOperator) (lhs rhs : Value) :
    Spares s env (cannotApply operator lhs rhs : Run α) P :=
  (spares_typeName lhs).bind fun _ _ => (spares_typeName rhs).bind fun _ _ => spares_complain _

theorem spares_pagePosition (index : Int64) (length : Nat) :
    Spares s env (pagePosition index length) :=
  .ite (spares_complain _) (.ite (spares_complain _) (.pure trivial))

theorem spares_growBook (other : h ≠ s) (length : Nat) : Spares s env (growBook h length) := by
  refine (spares_book h).bind fun _ _ => .ite (.pure trivial) (.ite (spares_complain _) ?_)
  exact spares_editBook other fun pages avoids => avoids_padded avoids _

theorem spares_productPages {target : Handle} {right left : List Value} (other : target ≠ s)
    (avoidRight : ∀ v ∈ right, v.Avoids s) (avoidLeft : ∀ v ∈ left, v.Avoids s) :
    Spares s env (productPages target right left) := by
  induction left with
  | nil => exact .pure trivial
  | cons page left ih =>
    have pairs : ∀ e ∈ right.map fun b => (page, b), e.1.Avoids s ∧ e.2.Avoids s := by
      intro e member
      obtain ⟨b, there, rfl⟩ := List.mem_map.mp member
      exact ⟨avoidLeft page (List.mem_cons_self ..), avoidRight b there⟩
    exact (spares_pushPairs other pairs).bind fun _ _ =>
      ih fun v member => avoidLeft v (List.mem_cons_of_mem _ member)

/-- A new book is pinned while it is filled. -/
theorem spares_fill {pins : Handle → List Value} {fill : Handle → Run Unit}
    (fills : ∀ target, target ≠ s → Spares s env (fill target)) :
    Spares s env (do
      let target ← allocate (.book #[])
      withPinned (pins target) do
        fill target
        return Value.book target) (·.Avoids s) := by
  have empty : (Object.book #[]).Avoids s := by simp
  refine (Spares.allocate empty).bind fun target other => .withPinned ?_
  exact (fills target other).bind fun _ _ => .pure ((Value.avoids_book).mpr other)

theorem spares_bookProduct {lhs rhs : Value} (left : lhs.Avoids s) (right : rhs.Avoids s) :
    Spares s env (bookProduct lhs rhs) (·.Avoids s) := by
  refine (spares_expected left _).bind fun _ _ => (spares_book _).bind fun ones first => ?_
  refine (spares_expected right _).bind fun _ _ => (spares_book _).bind fun others second => ?_
  exact .ite (spares_complain _) (spares_fill fun _ other =>
    spares_productPages other second first)

theorem spares_withPages {source journey : Value} {body : List Value → Run α}
    (avoids : source.Avoids s)
    (each : ∀ pages : List Value, (∀ v ∈ pages, v.Avoids s) → Spares s env (body pages) P) :
    Spares s env (withPages source journey body) P :=
  (spares_expected avoids _).bind fun _ _ => (spares_book _).bind fun _ own =>
    .withPinned (each _ own)

theorem spares_ascii (v : Value) : Spares s env (ascii v) (·.Avoids s) := by
  unfold ascii
  split
  · exact spares_newText _
  · exact (spares_text _).bind fun _ _ => .pure (Value.avoids_numeral _)
  · exact spares_complainOf _ _

section Operators

variable (calls : env.Spares s) {lhs rhs : Value} (left : lhs.Avoids s) (right : rhs.Avoids s)
include calls

omit left right in
theorem spares_numeral {v : Value} (avoids : v.Avoids s) (f : Int64 → Int64) :
    Spares s env (do return Value.numeral (f (← toNumeral v))) (·.Avoids s) :=
  (spares_toNumeral calls avoids).bind fun _ _ => .pure (Value.avoids_numeral _)

section Binary

include left right

theorem spares_applyChange (operator : BinaryOperator) :
    Spares s env (applyChange operator lhs rhs) (·.Avoids s) :=
  spares_byChange calls (by simp [left, right]) (fun _ own => .pure own) (spares_cannotApply _ _ _)

theorem spares_cmp : Spares s env (cmp lhs rhs) := by
  unfold cmp
  split
  · exact (spares_toNumeral calls right).bind fun _ _ => .pure trivial
  · exact (spares_toText calls right).bind fun _ _ => (spares_text _).bind fun _ _ => .pure trivial
  · exact (spares_applyChange calls left right .compare).bind fun _ own =>
      spares_toNumeral calls own
  · exact spares_cannotApply _ _ _

end Binary

theorem spares_not {v : Value} (avoids : v.Avoids s) : Spares s env (not v) (·.Avoids s) :=
  spares_byChange calls (by simpa using avoids) (fun _ own => .pure own)
    ((spares_toVeracity calls avoids).bind fun _ _ => .pure (Value.avoids_veracity _))

theorem spares_neg {v : Value} (avoids : v.Avoids s) : Spares s env (neg v) (·.Avoids s) := by
  unfold neg
  split
  · exact .pure (Value.avoids_numeral _)
  · exact spares_byChange calls (by simpa using avoids) (fun _ own => .pure own)
      (spares_complainOf _ _)

theorem spares_selectPages {journey : Value} {target : Handle} {pages : List Value}
    (callee : journey.Avoids s) (other : target ≠ s) (avoid : ∀ v ∈ pages, v.Avoids s) :
    Spares s env (selectPages journey target pages) := by
  induction pages with
  | nil => exact .pure trivial
  | cons page pages ih =>
    have own := avoid page (List.mem_cons_self ..)
    have rest := ih fun v member => avoid v (List.mem_cons_of_mem _ member)
    refine (Spares.call calls callee (by simpa using own)).bind fun keep kept => ?_
    refine (spares_toVeracity calls kept).bind fun _ _ => ?_
    exact .ite ((spares_push other own).bind fun _ _ => rest) rest

theorem spares_mapPages {journey : Value} {target : Handle} {pages : List Value}
    (callee : journey.Avoids s) (other : target ≠ s) (avoid : ∀ v ∈ pages, v.Avoids s) :
    Spares s env (mapPages journey target pages) := by
  induction pages with
  | nil => exact .pure trivial
  | cons page pages ih =>
    refine (Spares.call calls callee ?_).bind fun mapped own => ?_
    · simpa using avoid page (List.mem_cons_self ..)
    · exact (spares_push other own).bind fun _ _ =>
        ih fun v member => avoid v (List.mem_cons_of_mem _ member)

theorem spares_reducePages {journey accumulator : Value} {pages : List Value}
    (callee : journey.Avoids s) (start : accumulator.Avoids s) (avoid : ∀ v ∈ pages, v.Avoids s) :
    Spares s env (reducePages journey accumulator pages) (·.Avoids s) := by
  induction pages generalizing accumulator with
  | nil => exact .pure start
  | cons page pages ih =>
    have own := avoid page (List.mem_cons_self ..)
    refine (Spares.withPinned (.call calls callee (by simp [start, own]))).bind fun next made => ?_
    exact ih made fun v member => avoid v (List.mem_cons_of_mem _ member)

section Binary

include left right

theorem spares_bookSelect : Spares s env (bookSelect lhs rhs) (·.Avoids s) :=
  spares_withPages left fun _ own => spares_fill fun _ other =>
    spares_selectPages calls right other own

theorem spares_bookMap : Spares s env (bookMap lhs rhs) (·.Avoids s) :=
  spares_withPages left fun _ own => spares_fill fun _ other =>
    spares_mapPages calls right other own

theorem spares_bookReduce : Spares s env (bookReduce lhs rhs) (·.Avoids s) := by
  refine spares_withPages left fun pages own => ?_
  cases pages with
  | nil => exact .pure Value.avoids_ni
  | cons first rest =>
    exact spares_reducePages calls right (own first (List.mem_cons_self ..))
      fun v member => own v (List.mem_cons_of_mem _ member)

theorem spares_bookJoin : Spares s env (bookJoin lhs rhs) (·.Avoids s) := by
  refine (spares_expected right _).bind fun _ _ => (spares_text _).bind fun between _ => ?_
  refine Spares.bind (P := fun _ => True) (spares_withPages left fun pages own => ?_)
    fun parts _ => spares_newText _
  exact .mapM fun page member => spares_toText calls (own page member)

theorem spares_add : Spares s env (add lhs rhs) (·.Avoids s) := by
  unfold add
  split
  · exact (spares_toText calls left).bind fun _ _ =>
      (spares_text _).bind fun _ _ => spares_newText _
  · exact spares_numeral calls right _
  · exact (spares_toText calls right).bind fun _ _ =>
      (spares_text _).bind fun _ _ => spares_newText _
  · exact spares_bookSelect calls left right
  · refine (Spares.withPinned (spares_toBook calls right)).bind fun more made => ?_
    refine (spares_book _).bind fun pages own => (spares_expected made _).bind fun _ _ => ?_
    refine (spares_book _).bind fun others own' => .withPinned (spares_newBook ?_)
    intro v member
    simp only [Object.links, Array.toList_append, List.mem_append] at member
    exact member.elim (own v) (own' v)
  · exact spares_applyChange calls left right .add

theorem spares_sub : Spares s env (sub lhs rhs) (·.Avoids s) := by
  unfold sub
  split
  · exact spares_numeral calls right _
  · exact spares_applyChange calls left right .subtract

theorem spares_mul : Spares s env (mul lhs rhs) (·.Avoids s) := by
  unfold mul
  split
  · exact spares_numeral calls right _
  · refine (spares_toNumeral calls right).bind fun _ _ => (spares_text _).bind fun _ _ => ?_
    split
    · exact spares_newText _
    · exact spares_complain _
  · split
    · refine (spares_book _).bind fun pages own => ?_
      split
      · refine spares_newBook fun v member => own v ?_
        simp only [Object.links, Array.mem_toList_iff, Array.mem_flatten,
          Array.mem_replicate] at member
        obtain ⟨copy, ⟨_, rfl⟩, inside⟩ := member
        exact Array.mem_toList_iff.mpr inside
      · exact spares_complain _
    · exact spares_bookJoin calls left right
    · exact spares_bookProduct left right
    · exact spares_bookMap calls left right
    · exact spares_cannotApply _ _ _
  · exact spares_applyChange calls left right .multiply

theorem spares_div : Spares s env (div lhs rhs) (·.Avoids s) := by
  unfold div
  split
  · exact (spares_toNumeral calls right).bind fun _ _ =>
      .ite (spares_complain _) (.pure (Value.avoids_numeral _))
  · exact spares_applyChange calls left right .divide

theorem spares_rem : Spares s env (rem lhs rhs) (·.Avoids s) := by
  unfold rem
  split
  · exact (spares_toNumeral calls right).bind fun _ _ =>
      .ite (spares_complain _) (.pure (Value.avoids_numeral _))
  · exact spares_bookReduce calls left right
  · exact spares_applyChange calls left right .modulo

theorem spares_pow : Spares s env (pow lhs rhs) (·.Avoids s) := by
  unfold pow
  split
  · exact spares_numeral calls right _
  · exact spares_applyChange calls left right .exponentiate

end Binary

variable {container key new : Value} (inside : container.Avoids s) (at_ : key.Avoids s)

section Indexing

include inside at_

theorem spares_index : Spares s env (index container key) (·.Avoids s) := by
  unfold index
  split
  · refine (spares_toNumeral calls at_).bind fun _ _ => .ite (spares_complain _) ?_
    refine (spares_text _).bind fun _ _ => .ite (.pure Value.avoids_ni) ?_
    split
    · exact spares_newText _
    · exact .pure Value.avoids_ni
  · refine (spares_toNumeral calls at_).bind fun _ _ => (spares_book _).bind fun _ _ => ?_
    exact (spares_pagePosition _ _).bind fun _ _ => (spares_book _).bind fun _ own =>
      .pure (avoids_getD own _)
  · refine (spares_codexLookup calls _ at_).bind fun found own => .pure ?_
    cases found with
    | none => exact Value.avoids_ni
    | some v => exact own v rfl
  · exact spares_byChange calls (by simp [inside, at_]) (fun _ own => .pure own)
      (spares_complainOf _ _)

theorem spares_delete : Spares s env (delete container key) (·.Avoids s) := by
  unfold delete
  split
  · have other := (Value.avoids_book).mp inside
    refine (spares_toNumeral calls at_).bind fun _ _ => (spares_book _).bind fun _ _ => ?_
    refine (spares_pagePosition _ _).bind fun _ _ => (spares_book _).bind fun _ own => ?_
    exact (spares_editBook other fun _ avoids => avoids_eraseIdx avoids _).bind fun _ _ =>
      .pure (avoids_getD own _)
  · refine (spares_codexRemove calls ((Value.avoids_codex).mp inside) at_).bind fun found own => ?_
    refine .pure ?_
    cases found with
    | none => exact Value.avoids_ni
    | some v => exact own v rfl
  · exact spares_complain _

variable (stored : new.Avoids s)
include stored

theorem spares_indexAssign : Spares s env (indexAssign container key new) := by
  unfold indexAssign
  split
  · have other := (Value.avoids_book).mp inside
    refine (spares_toNumeral calls at_).bind fun _ _ => (spares_book _).bind fun _ _ => ?_
    refine (spares_pagePosition _ _).bind fun _ _ => (spares_growBook other _).bind fun _ _ => ?_
    exact spares_editBook other fun _ avoids => avoids_setIfInBounds avoids _ stored
  · exact spares_codexInsert calls ((Value.avoids_codex).mp inside) at_ stored
  · exact spares_byChange calls (by simp [inside, at_, stored]) (fun _ _ => .pure trivial)
      (spares_complainOf _ _)

theorem spares_insertPage : Spares s env (insertPage container key new) := by
  unfold insertPage
  split
  · have other := (Value.avoids_book).mp inside
    refine (spares_toNumeral calls at_).bind fun _ _ => (spares_book _).bind fun _ _ => ?_
    refine (spares_pagePosition _ _).bind fun _ _ => (spares_growBook other _).bind fun _ _ => ?_
    exact spares_editBook other fun _ avoids => avoids_insertIdx avoids _ stored
  · exact spares_complain _

end Indexing

theorem spares_substr {source start count : Value} (whole : source.Avoids s)
    (first : start.Avoids s) (amount : count.Avoids s) :
    Spares s env (substr source start count) (·.Avoids s) := by
  refine (spares_toText calls whole).bind fun _ _ => ?_
  refine (spares_toNumeral calls first).bind fun _ _ => .ite (spares_complain _) ?_
  exact (spares_toNumeral calls amount).bind fun _ _ => spares_newText _

end Operators

section Matching

variable (calls : env.Spares s)
include calls

theorem spares_matchesWithin (room : Nat) (visiting : List Handle) {pattern candidate : Value}
    (tested : pattern.Avoids s) (given : candidate.Avoids s) :
    Spares s env (matchesWithin room visiting pattern candidate) := by
  induction room generalizing visiting pattern with
  | zero => exact .fail
  | succ room ih =>
    have called : Spares s env (do toVeracity (← call pattern [candidate])) :=
      (Spares.call calls tested (by simpa using given)).bind fun _ own =>
        spares_toVeracity calls own
    cases pattern <;> unfold matchesWithin
    case form =>
      dsimp only
      split
      · exact (spares_imitation _).bind fun _ _ => .onHeap fun _ _ _ _ => trivial
      · exact .pure trivial
    case journey => exact called
    case text =>
      refine (spares_text _).bind fun _ _ => ?_
      split
      · exact .ite (.pure trivial) (spares_eql calls tested given)
      · exact spares_eql calls tested given
    case book =>
      refine .ite (.pure trivial) ((spares_book _).bind fun pages own => .withPinned ?_)
      exact .anyM fun page member => ih _ (own page member)
    case other =>
      refine (spares_other _).bind fun object own => ?_
      cases object with
      | both lhs rhs =>
        exact (ih visiting (own lhs (by simp [Object.links, Other.values]))).bind fun _ _ =>
          .ite (ih visiting (own rhs (by simp [Object.links, Other.values]))) (.pure trivial)
      | either lhs rhs =>
        exact (ih visiting (own lhs (by simp [Object.links, Other.values]))).bind fun _ _ =>
          .ite (.pure trivial) (ih visiting (own rhs (by simp [Object.links, Other.values])))
      | opposite inner =>
        exact (ih visiting (own inner (by simp [Object.links, Other.values]))).bind fun _ _ =>
          .pure trivial
      | host journey => exact called
      | scroll scroll => exact .pure trivial
    case ni | veracity | numeral => exact spares_eql calls tested given
    case imitation | codex => exact spares_complainOf _ _

theorem spares_fits {pattern candidate : Value} (tested : pattern.Avoids s)
    (given : candidate.Avoids s) : Spares s env (fits pattern candidate) :=
  .get fun _ _ _ => .read (spares_matchesWithin calls _ [] tested given)

theorem spares_checkGuard {guard : Option Value} {new : Value}
    (guards : ∀ g, guard = some g → g.Avoids s) (given : new.Avoids s) (owner field : String) :
    Spares s env (checkGuard guard new owner field) := by
  cases guard with
  | none => exact .pure trivial
  | some guard =>
    exact (Spares.withPinned (spares_fits calls (guards guard rfl) given)).bind fun _ _ =>
      .ite (.pure trivial) (spares_complainOf _ _)

end Matching

section Attributes

theorem spares_scrollAttribute (h : Handle) (name : String) :
    Spares s env (scrollAttribute? h name) fun found => ∀ v, found = some v → v.Avoids s := by
  have text : ∀ content, Spares s env (do return some (← newText content)) fun found =>
      ∀ v, found = some v → v.Avoids s := by
    refine fun content => (spares_newText content).bind fun made own => .pure fun v same => ?_
    cases same
    exact own
  refine (spares_other h).bind fun object _ => ?_
  cases object with
  | scroll scroll =>
    dsimp only
    split
    · exact text _
    · exact text _
    · split
      · rename_i method arity _
        have host : ∀ journey, (Object.other (.host journey)).Avoids s := fun journey => by
          simp [Other.values]
        refine (Spares.allocate (host _)).bind fun made other => .pure fun v same => ?_
        cases same
        exact (Value.avoids_other).mpr other
      · exact .pure fun _ same => by cases same
  | _ => exact .pure fun _ same => by cases same

variable (calls : env.Spares s)
include calls

theorem spares_attribute {v : Value} (avoids : v.Avoids s) (name : String) :
    Spares s env (attribute? v name) fun found => ∀ w, found = some w → w.Avoids s := by
  have found : ∀ {w : Value}, w.Avoids s → ∀ u, some w = some u → u.Avoids s := by
    rintro w own _ ⟨⟩
    exact own
  have nothing : ∀ u : Value, none = some u → u.Avoids s := fun _ same => by cases same
  refine .ite ((spares_genusOf v).bind fun _ own => .pure (found own)) ?_
  refine .ite ((spares_length calls avoids).bind fun _ _ =>
    .pure (found (Value.avoids_numeral _))) ?_
  cases v <;> dsimp only
  case form => exact .onHeap fun _ objects => (Heap.avoids_attributeWithin objects name _ _).1
  case imitation =>
    have looks : ∀ form, Spares s env (onHeap (·.change? form name)) fun found =>
        ∀ c, found = some c → c ≠ s := fun form =>
      .onHeap fun _ objects => (Heap.other_changeWithin objects name _ form).1
    refine (spares_imitation _).bind fun _ _ => (looks _).bind fun change other => ?_
    cases change with
    | some change => exact .pure (found ((Value.avoids_journey).mpr (other change rfl)))
    | none =>
      refine (spares_form _).bind fun _ _ => ?_
      split
      · exact .pure nothing
      · refine (spares_imitation _).bind fun i own => .pure fun w same => ?_
        have matter := ((Object.avoids_imitation).mp own).2
        exact matter w (Array.mem_toList_iff.mpr (Array.mem_of_getElem? same))
  case book | text =>
    exact .ite ((spares_index calls avoids (Value.avoids_numeral _)).bind fun _ own =>
        .pure (found own))
      (.ite ((spares_index calls avoids (Value.avoids_numeral _)).bind fun _ own =>
        .pure (found own)) (.pure nothing))
  case journey =>
    exact .ite ((spares_journey _).bind fun _ _ => .pure (found (Value.avoids_numeral _)))
      (.pure nothing)
  case other => exact spares_scrollAttribute _ name
  all_goals exact .pure nothing

theorem spares_setAttribute {v new : Value} (avoids : v.Avoids s) (given : new.Avoids s)
    (name : String) : Spares s env (setAttribute v name new) := by
  cases v <;> unfold setAttribute <;> dsimp only
  case form h =>
    refine (spares_form h).bind fun f own => ?_
    split
    · exact .pure trivial
    · rename_i i _
      refine (spares_checkGuard calls (fun g guarded => ?_) given _ _).bind fun _ _ => ?_
      · obtain ⟨e, there, guard⟩ := Option.bind_eq_some_iff.mp guarded
        exact (own.essence (List.mem_of_getElem? there)).2 g guard
      · refine (spares_editForm ((Value.avoids_form).mp avoids) fun form kept w member => ?_).bind
          fun _ _ => .pure trivial
        rcases Form.links_setEssence member with before | rfl
        · exact kept w before
        · exact given
  case imitation h =>
    refine (spares_imitation h).bind fun _ _ => (spares_form _).bind fun f own => ?_
    split
    · exact .pure trivial
    · rename_i i _
      refine (spares_checkGuard calls (fun g guarded => ?_) given _ _).bind fun _ _ => ?_
      · obtain ⟨field, there, guard⟩ := Option.bind_eq_some_iff.mp guarded
        exact own.matter (List.mem_of_getElem? there) g guard
      · refine (spares_editImitation ((Value.avoids_imitation).mp avoids)
          fun im kept => ?_).bind fun _ _ => .pure trivial
        have parts := (Object.avoids_imitation).mp kept
        exact (Object.avoids_imitation).mpr
          ⟨parts.1, avoids_setIfInBounds (avoids_padded parts.2 _) i given⟩
  case book h =>
    exact .ite ((spares_indexAssign calls avoids (Value.avoids_numeral _) given).bind fun _ _ =>
        .pure trivial)
      (.ite ((spares_indexAssign calls avoids (Value.avoids_numeral _) given).bind fun _ _ =>
        .pure trivial) (.pure trivial))
  all_goals exact .pure trivial

end Attributes

section Scrolls

theorem spares_openScroll (filename mode : String) :
    Spares s env (openScroll filename mode) (·.Avoids s) := by
  have opened : ∀ scroll, (Object.other (.scroll scroll)).Avoids s := fun scroll => by
    simp [Other.values]
  refine (Spares.exchange _).bind fun answer _ => ?_
  split
  · exact (Spares.allocate (opened _)).bind fun _ other => .pure ((Value.avoids_other).mpr other)
  · exact spares_report _ _

theorem spares_onScroll {v : Value} (avoids : v.Avoids s) (what : String)
    (action : Scroll → Platform → Exchange (α × Scroll)) :
    Spares s env (onScroll v what action) := by
  unfold onScroll
  split
  · refine (spares_other _).bind fun object _ => ?_
    cases object with
    | scroll scroll =>
      refine (Spares.exchange _).bind fun answer _ => ?_
      split
      · refine (spares_update ((Value.avoids_other).mp avoids) fun object clear => ?_).bind
          fun _ _ => .pure trivial
        split
        · simp [Other.values]
        · exact clear
      · exact spares_report _ _
    | _ => exact spares_complainOf _ _
  · exact spares_complainOf _ _

theorem spares_readScroll {scroll : Value} (avoids : scroll.Avoids s) (what : String)
    (action : Scroll → Platform → Exchange (String × Scroll)) :
    Spares s env (do newText (← onScroll scroll what action)) (·.Avoids s) :=
  (spares_onScroll avoids what action).bind fun _ _ => spares_newText _

theorem spares_scrollRead {scroll : Value} (avoids : scroll.Avoids s) (amount : Value) :
    Spares s env (scrollRead scroll amount) (·.Avoids s) := by
  unfold scrollRead
  split
  · exact spares_readScroll avoids _ _
  · exact .ite (spares_readScroll avoids _ _)
      (.ite (spares_complain _) (spares_readScroll avoids _ _))
  · exact (spares_text _).bind fun _ _ =>
      .ite (spares_readScroll avoids _ _) (spares_complain _)
  · exact spares_complainOf _ _

theorem spares_runProbe (probe : Probe) {args : Arguments} (given : ∀ v ∈ args.values, v.Avoids s) :
    Spares s env (runProbe probe args) (·.Avoids s) := by
  have first : (args.positional.head?.getD .ni).Avoids s := by
    cases found : args.positional.head? with
    | none => exact Value.avoids_ni
    | some v => exact given v (List.mem_append_left _ (List.mem_of_mem_head? found))
  cases probe
  case first => exact .pure first
  case count => exact .pure (Value.avoids_numeral _)
  case collect =>
    have collects : Spares s env collect := fun _ _ secluded => ⟨secluded.collect, rfl, trivial⟩
    exact collects.discard.bind fun _ _ => .pure first
  case handlers | frames | live => exact .get fun _ _ _ => .pure (Value.avoids_numeral _)
  case fail => exact spares_complain _

variable (calls : env.Spares s)
include calls

theorem spares_runScrollMethod (method : ScrollMethod) {args : List Value}
    (given : ∀ v ∈ args, v.Avoids s) :
    Spares s env (runScrollMethod method args) (·.Avoids s) := by
  have arg : ∀ i, (args.getD i .ni).Avoids s := by
    intro i
    rw [List.getD_eq_getElem?_getD]
    cases found : args[i]? with
    | none => exact Value.avoids_ni
    | some v => exact given v (List.mem_of_getElem? found)
  cases method
  case write =>
    exact (spares_toText calls (arg 1)).bind fun _ _ => (spares_onScroll (arg 0) _ _).bind
      fun _ _ => .pure Value.avoids_ni
  case read => exact spares_scrollRead (arg 0) _
  case readAll => exact spares_readScroll (arg 0) _ _
  case seek =>
    exact (spares_toNumeral calls (arg 1)).bind fun _ _ =>
      (spares_toNumeral calls (arg 2)).bind fun _ _ => (spares_onScroll (arg 0) _ _).bind
        fun _ _ => .pure (Value.avoids_numeral _)
  case tell =>
    exact (spares_onScroll (arg 0) _ _).bind fun _ _ => .pure (Value.avoids_numeral _)
  case close => exact (spares_onScroll (arg 0) _ _).bind fun _ _ => .pure Value.avoids_ni

theorem spares_callHost (journey : HostJourney) {args : Arguments}
    (given : ∀ v ∈ args.values, v.Avoids s) : Spares s env (callHost journey args) (·.Avoids s) := by
  obtain ⟨name, arity, routine⟩ := journey
  have runs : Spares s env (callHost ⟨name, none, routine⟩ args) (·.Avoids s) := by
    cases routine with
    | scroll method =>
      exact spares_runScrollMethod calls method fun v member =>
        given v (List.mem_append_left _ member)
    | probe probe => exact spares_runProbe probe given
  cases arity with
  | none => exact runs
  | some expected => exact .ite ((spares_complain (P := fun _ => True) _).bind fun _ _ => runs) runs

end Scrolls

end Run

end JourneyMachine
