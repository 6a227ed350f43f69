import JourneyMachine.Proofs.Containers.Pages

/-! Inserting and deleting pages. An insertion counts its index among the places for a page, of which
there is one more than pages, so the page stands at that index afterwards and a deletion at the same
index takes it out again. The book is filled up to the place first, and only that is checked against
the limit: the page that then goes in may be one too many. -/

namespace JourneyMachine

/-- A place for a page in a book of so many, counted from either end. -/
def Insertable (i : Int64) (n : Nat) : Prop :=
  (1 ≤ i.toInt ∧ i.toInt ≤ n + 1) ∨ (-(n + 1) ≤ i.toInt ∧ i.toInt ≤ -1)

/-- An insertion that is made keeps a book of so many pages within the limit: there is room for one
more, and the place is not the one right after the last that a book may have. -/
def Spacious (i : Int64) (n : Nat) : Prop :=
  n < Run.maxLength ∧ i.toInt ≠ Run.maxLength + 1

instance (i : Int64) (n : Nat) : Decidable (Insertable i n) := inferInstanceAs (Decidable (_ ∨ _))

instance (i : Int64) (n : Nat) : Decidable (Spacious i n) := inferInstanceAs (Decidable (_ ∧ _))

/-- The pages with another one at a position, filled up with ni as far as needed. -/
def insertPadded (pages : Array Value) (p : Nat) (v : Value) : Array Value :=
  (pages ++ Array.replicate (p - pages.size) Value.ni).insertIdxIfInBounds p v

section Places

variable {i : Int64} {n : Nat}

/-- The places for a page are counted as the pages are when it is in. -/
theorem offBook_insertion :
    OffBook i (if i.toInt < 0 then n + 1 else n) ↔ OffBook i (n + 1) := by
  unfold OffBook
  split
  · exact Iff.rfl
  · exact or_congr_right (by omega)

theorem positionOf_insertion (other : i ≠ 0) :
    positionOf i (if i.toInt < 0 then n + 1 else n) = positionOf i (n + 1) := by
  have nonzero : i.toInt ≠ 0 := fun zero => other (toInt_eq_zero.mp zero)
  unfold positionOf
  split
  · rfl
  · rw [if_pos (by omega)]

theorem Insertable.inside (insertable : Insertable i n) : ¬ OffBook i (n + 1) := by
  unfold Insertable at insertable
  rintro (rfl | off)
  · simp only [Int64.toInt_zero] at insertable
    omega
  · omega

theorem Insertable.position_le (insertable : Insertable i n) : positionOf i (n + 1) ≤ n := by
  unfold Insertable at insertable
  unfold positionOf
  split <;> omega

/-- A page that is assigned is one of the pages or the one at its index. -/
theorem positionOf_next (inside : ¬ OffBook i n) :
    positionOf i n + 1 ≤ n ∨ (positionOf i n + 1 : Int) = i.toInt := by
  have other : i.toInt ≠ 0 := fun zero => inside (.inl (toInt_eq_zero.mp zero))
  unfold OffBook at inside
  unfold positionOf
  split <;> omega

/-- What is inserted makes a book within the limit, or of one page too many. -/
theorem spacious_iff (inside : ¬ OffBook i (n + 1)) (within : n ≤ Run.maxLength)
    (fits : positionOf i (n + 1) ≤ n ∨ positionOf i (n + 1) ≤ Run.maxLength) :
    max n (positionOf i (n + 1)) + 1 ≤ Run.maxLength ↔ Spacious i n := by
  have other : i.toInt ≠ 0 := fun zero => inside (.inl (toInt_eq_zero.mp zero))
  unfold OffBook at inside
  unfold Spacious
  unfold positionOf at fits ⊢
  split at fits <;> rename_i sign <;> simp only [sign, if_true, if_false] <;> omega

end Places

section Contents

variable {pages : Array Value} {p : Nat}

theorem toList_insertPadded (v : Value) : (insertPadded pages p v).toList =
    (pages.toList ++ List.replicate (p - pages.size) Value.ni).insertIdx p v := by
  have inside : p ≤ (pages ++ Array.replicate (p - pages.size) Value.ni).size := by
    simp only [Array.size_append, Array.size_replicate]
    omega
  simp only [insertPadded, Array.insertIdxIfInBounds, dif_pos inside, Array.toList_insertIdx,
    Array.toList_append, Array.toList_replicate]

theorem size_insertPadded (v : Value) : (insertPadded pages p v).size = max pages.size p + 1 := by
  rw [← Array.length_toList, toList_insertPadded, List.length_insertIdx]
  simp only [List.length_append, List.length_replicate, Array.length_toList]
  split <;> omega

theorem getD_insertPadded (v : Value) : (insertPadded pages p v).getD p .ni = v := by
  have there : (insertPadded pages p v)[p]? = some v := by
    rw [← Array.getElem?_toList, toList_insertPadded, List.getElem?_insertIdx_self, if_pos]
    simp only [List.length_append, List.length_replicate, Array.length_toList]
    omega
  rw [Array.getD_eq_getD_getElem?, there, Option.getD_some]

theorem insertIdx_append_length (before after : List Value) (v : Value) :
    (before ++ after).insertIdx before.length v = before ++ v :: after :=
  List.modifyTailIdx_add (List.cons v) 0 before after

theorem toList_insertPadded_within (v : Value) (within : p ≤ pages.size) :
    (insertPadded pages p v).toList = pages.toList.take p ++ v :: pages.toList.drop p := by
  have length : (pages.toList.take p).length = p := by simpa using within
  have split := insertIdx_append_length (pages.toList.take p) (pages.toList.drop p) v
  rw [List.take_append_drop, length] at split
  rw [toList_insertPadded, Nat.sub_eq_zero_of_le within, List.replicate_zero, List.append_nil, split]

theorem toList_insertPadded_past (v : Value) (past : pages.size ≤ p) :
    (insertPadded pages p v).toList =
      pages.toList ++ List.replicate (p - pages.size) .ni ++ [v] := by
  have length : (pages.toList ++ List.replicate (p - pages.size) Value.ni).length = p := by
    simp only [List.length_append, List.length_replicate, Array.length_toList]
    omega
  have split := insertIdx_append_length (pages.toList ++ List.replicate (p - pages.size) .ni) [] v
  rw [List.append_nil, length] at split
  rw [toList_insertPadded, split]

theorem erase_insertPadded (v : Value) (within : p ≤ pages.size) :
    (insertPadded pages p v).eraseIdxIfInBounds p = pages := by
  apply Array.toList_inj.mp
  rw [Array.toList_eraseIdxIfInBounds, toList_insertPadded, List.eraseIdx_insertIdx_self,
    Nat.sub_eq_zero_of_le within, List.replicate_zero, List.append_nil]

end Contents

theorem Machine.rewrite_back {m : Machine} {h : Handle} {pages : Array Value}
    {f g : Array Value → Array Value} (used : m.heap.get? h = some (.book pages))
    (back : g (f pages) = pages) : (m.rewrite h f).rewrite h g = m := by
  have same : ((m.rewrite h f).rewrite h g).heap = m.heap := by
    apply Heap.modify_modify.trans
    apply Heap.modify_back
    intro o there
    cases Option.some.inj (used.symm.trans there)
    exact congrArg Object.book back
  calc (m.rewrite h f).rewrite h g = { m with heap := ((m.rewrite h f).rewrite h g).heap } := rfl
    _ = m := by rw [same]

namespace Run

variable {env : Env} {m : Machine} {h : Handle} {pages : Array Value} {i : Int64} {v : Value}

theorem insertPage_book (used : m.heap.get? h = some (.book pages)) (v : Value) :
    insertPage (.book h) (.numeral i) v env m = (do
      let position ← pagePosition i (if i.toInt < 0 then pages.size + 1 else pages.size)
      growBook h position
      editBook h (·.insertIdxIfInBounds position v)) env m := by
  have numeral : toNumeral (.numeral i) env m = .ok i m := rfl
  exact (bind_ok numeral).trans (bind_ok (read_book used))

theorem delete_book (used : m.heap.get? h = some (.book pages)) :
    delete (.book h) (.numeral i) env m = (do
      let position ← pagePosition i pages.size
      let page := (← book h).getD position .ni
      editBook h (·.eraseIdxIfInBounds position)
      return page) env m := by
  have numeral : toNumeral (.numeral i) env m = .ok i m := rfl
  exact (bind_ok numeral).trans (bind_ok (read_book used))

theorem placed_at (inside : ¬ OffBook i (pages.size + 1)) :
    pagePosition i (if i.toInt < 0 then pages.size + 1 else pages.size) env m =
      .ok (positionOf i (pages.size + 1)) m := by
  have other : i ≠ 0 := fun zero => inside (.inl zero)
  rw [← positionOf_insertion other]
  exact pagePosition_ok fun off => inside (offBook_insertion.mp off)

/-- An insertion among the pages or right after them changes nothing else. -/
theorem insertPage_among (used : m.heap.get? h = some (.book pages))
    (insertable : Insertable i pages.size) (v : Value) (env : Env) :
    insertPage (.book h) (.numeral i) v env m =
      .ok () (m.rewrite h (·.insertIdxIfInBounds (positionOf i (pages.size + 1)) v)) := by
  have enough : growBook h (positionOf i (pages.size + 1)) env m = .ok () m := by
    refine (bind_ok (read_book used)).trans ?_
    rw [if_pos insertable.position_le]
    rfl
  rw [insertPage_book used]
  exact (bind_ok (placed_at insertable.inside)).trans ((bind_ok enough).trans (editBook_eq used))

theorem insertPage_ok (used : m.heap.get? h = some (.book pages)) (v : Value) (env : Env)
    (inside : ¬ OffBook i (pages.size + 1))
    (fits : positionOf i (pages.size + 1) ≤ pages.size ∨
      positionOf i (pages.size + 1) ≤ maxLength) :
    ∃ m', insertPage (.book h) (.numeral i) v env m = .ok () m' ∧
      m.Replaced h (.book (insertPadded pages (positionOf i (pages.size + 1)) v)) m' := by
  obtain ⟨m₁, grown, first⟩ := growBook_ok used fits
  obtain ⟨m₂, stored, second⟩ := editBook_ok (f := (·.insertIdxIfInBounds _ v)) first.object
  apply Exists.intro m₂
  constructor
  · rw [insertPage_book used]
    exact (bind_ok (placed_at inside)).trans ((bind_ok grown).trans stored)
  · exact first.trans second

theorem insertPage_threw (tidy : m.heap.Tidy) (used : m.heap.get? h = some (.book pages))
    (v : Value) (env : Env) (off : OffBook i (pages.size + 1)) :
    ∃ m', insertPage (.book h) (.numeral i) v env m = .error .thrown m' ∧
      m.Complained m.builtins.exception (indexComplaint i).message m' := by
  obtain ⟨m', failed, complained⟩ := pagePosition_threw tidy (offBook_insertion.mpr off)
  rw [insertPage_book used]
  exact ⟨m', bind_error failed, complained⟩

theorem insertPage_refused (tidy : m.heap.Tidy) (used : m.heap.get? h = some (.book pages))
    (v : Value) (env : Env) (inside : ¬ OffBook i (pages.size + 1))
    (short : pages.size < positionOf i (pages.size + 1))
    (past : maxLength < positionOf i (pages.size + 1)) :
    ∃ m', insertPage (.book h) (.numeral i) v env m = .error .thrown m' ∧
      m.Complained m.builtins.exception
        (Complaint.bookGrowth (positionOf i (pages.size + 1))).message m' := by
  obtain ⟨m', failed, complained⟩ := growBook_threw tidy used short past
  rw [insertPage_book used]
  exact ⟨m', (bind_ok (placed_at inside)).trans (bind_error failed), complained⟩

theorem positionOf_positive {n : Nat} (positive : 0 < i.toInt) :
    positionOf i n = i.toInt.toNat - 1 := by
  unfold positionOf
  rw [if_pos positive]
  omega

/-- A deletion at the index of an insertion gives the page back and undoes it. Past the page after
the last, the gap is filled with ni and the page ends up at its index. -/
theorem insertion_undone (used : m.heap.get? h = some (.book pages)) (i : Int64) (v : Value)
    (env : Env) :
    (Insertable i pages.size →
      let p := positionOf i (pages.size + 1)
      ∃ m' after, insertPage (.book h) (.numeral i) v env m = .ok () m' ∧
        m.Replaced h (.book after) m' ∧ after.size = pages.size + 1 ∧
        after.toList = pages.toList.take p ++ v :: pages.toList.drop p ∧
        index (.book h) (.numeral i) env m' = .ok v m' ∧
        delete (.book h) (.numeral i) env m' = .ok v m) ∧
    (pages.size + 1 < i.toInt → i.toInt ≤ maxLength →
      ∃ m' after, insertPage (.book h) (.numeral i) v env m = .ok () m' ∧
        m.Replaced h (.book after) m' ∧ (after.size : Int) = i.toInt ∧
        after.toList =
          pages.toList ++ List.replicate (i.toInt.toNat - 1 - pages.size) .ni ++ [v] ∧
        index (.book h) (.numeral i) env m' = .ok v m') := by
  constructor
  · intro insertable p
    let m' := m.rewrite h (·.insertIdxIfInBounds p v)
    let after := insertPadded pages p v
    have within : p ≤ pages.size := insertable.position_le
    have padded : pages.insertIdxIfInBounds p v = after := by
      show _ = insertPadded pages p v
      rw [insertPadded, Nat.sub_eq_zero_of_le within, Array.replicate_zero, Array.append_empty]
    have replaced : m.Replaced h (.book after) m' :=
      padded ▸ replaced_rewrite (f := (·.insertIdxIfInBounds p v)) used
    have size : after.size = pages.size + 1 := by
      rw [size_insertPadded, Nat.max_eq_left within]
    have inside : ¬ OffBook i after.size := size ▸ insertable.inside
    have place : positionOf i after.size = p := by rw [size]
    have located : pagePosition i after.size env m' = .ok p m' :=
      place ▸ pagePosition_ok inside
    have there : after.getD p .ni = v := getD_insertPadded v
    refine ⟨m', after, insertPage_among used insertable v env, replaced, size,
      toList_insertPadded_within v within, ?_, ?_⟩
    · rw [index_book replaced.object, ← there]
      exact (bind_ok located).trans (bind_ok (read_book replaced.object))
    · have back : (pages.insertIdxIfInBounds p v).eraseIdxIfInBounds p = pages := by
        rw [padded, erase_insertPadded v within]
      have erased : editBook h (·.eraseIdxIfInBounds p) env m' = .ok () m := by
        rw [editBook_eq replaced.object, Machine.rewrite_back used back]
      rw [delete_book replaced.object, ← there]
      apply (bind_ok located).trans
      exact (bind_ok (read_book replaced.object)).trans (bind_ok erased)
  · intro past fits
    have place : ∀ n, positionOf i n = i.toInt.toNat - 1 := fun _ =>
      positionOf_positive (by omega)
    have inside : ∀ n, ¬ OffBook i n := by
      rintro n (rfl | off)
      · simp only [Int64.toInt_zero] at past
        omega
      · omega
    obtain ⟨m', done, replaced⟩ := insertPage_ok used v env (inside _) (by rw [place]; omega)
    rw [place] at replaced
    refine ⟨m', _, done, replaced, ?_, toList_insertPadded_past v (by omega), ?_⟩
    · rw [size_insertPadded]
      omega
    · rw [index_book replaced.object]
      apply (bind_ok (pagePosition_ok (inside _))).trans
      rw [place]
      exact (bind_ok (read_book replaced.object)).trans
        (congrArg (EStateM.Result.ok · m') (getD_insertPadded v))

/-- The last of three places for a page in a book of two, and a place with a gap of two before it. -/
theorem slate_undone : Insertable (-1) 2 ∧ (2 + 1 < (5 : Int64).toInt ∧
    (5 : Int64).toInt ≤ maxLength) ∧ ∀ env,
    (∃ m', insertPage (.book ⟨0⟩) (.numeral (-1)) (.numeral 7) env slate = .ok () m' ∧
      m'.heap.get? ⟨0⟩ = some (.book #[.numeral 1, .numeral 2, .numeral 7]) ∧
      delete (.book ⟨0⟩) (.numeral (-1)) env m' = .ok (.numeral 7) slate) ∧
    ∃ m', insertPage (.book ⟨0⟩) (.numeral 5) (.numeral 7) env slate = .ok () m' ∧
      m'.heap.get? ⟨0⟩ = some (.book #[.numeral 1, .numeral 2, .ni, .ni, .numeral 7]) := by
  have last : Insertable (-1) 2 := by decide
  have past : 2 + 1 < (5 : Int64).toInt := by decide
  have fits : (5 : Int64).toInt ≤ maxLength := by decide
  refine ⟨last, ⟨past, fits⟩, fun env => ⟨?_, ?_⟩⟩
  · obtain ⟨undone, _⟩ := insertion_undone slate_book (-1) (.numeral 7) env
    obtain ⟨m', after, done, replaced, _, content, _, back⟩ := undone last
    have same : after = #[.numeral 1, .numeral 2, .numeral 7] := Array.toList_inj.mp content
    exact ⟨m', done, same ▸ replaced.object, back⟩
  · obtain ⟨_, gap⟩ := insertion_undone slate_book 5 (.numeral 7) env
    obtain ⟨m', after, done, replaced, _, content, _⟩ := gap past fits
    have same : after = #[.numeral 1, .numeral 2, .ni, .ni, .numeral 7] :=
      Array.toList_inj.mp content
    exact ⟨m', done, same ▸ replaced.object⟩

/-- Assigning a page keeps a book within the limit, and so does inserting one exactly where there is
room for it; what would have to fill the book past the limit throws and leaves it as it was. -/
theorem pages_stay_limited (tidy : m.heap.Tidy) (used : m.heap.get? h = some (.book pages))
    (rooted : m.heap.Reachable m.roots h) (limited : pages.size ≤ maxLength) (i : Int64) (v : Value)
    (env : Env) :
    let place := positionOf i (pages.size + 1)
    (if OffBook i pages.size ∨ PastGrowth i pages.size then
      ∃ m', indexAssign (.book h) (.numeral i) v env m = .error .thrown m' ∧
        m.Complained m.builtins.exception (indexComplaint i).message m' ∧
        m'.heap.get? h = some (.book pages)
    else ∃ m' after, indexAssign (.book h) (.numeral i) v env m = .ok () m' ∧
        m.Replaced h (.book after) m' ∧ after.size ≤ maxLength) ∧
    (if OffBook i (pages.size + 1) then
      ∃ m', insertPage (.book h) (.numeral i) v env m = .error .thrown m' ∧
        m.Complained m.builtins.exception (indexComplaint i).message m' ∧
        m'.heap.get? h = some (.book pages)
    else if maxLength < place then
      ∃ m', insertPage (.book h) (.numeral i) v env m = .error .thrown m' ∧
        m.Complained m.builtins.exception (Complaint.bookGrowth place).message m' ∧
        m'.heap.get? h = some (.book pages)
    else ∃ m' after, insertPage (.book h) (.numeral i) v env m = .ok () m' ∧
        m.Replaced h (.book after) m' ∧ (after.size ≤ maxLength ↔ Spacious i pages.size)) := by
  intro place
  have stays : ∀ {message m'}, m.Complained m.builtins.exception message m' →
      m'.heap.get? h = some (.book pages) := fun complained =>
    (complained.retains.kept h rooted).trans used
  constructor
  · split
    · rename_i wrong
      obtain ⟨m', failed, complained⟩ := indexAssign_threw tidy used v wrong
      exact ⟨m', failed, complained, stays complained⟩
    · rename_i right
      rw [not_or] at right
      obtain ⟨m', done, replaced⟩ := indexAssign_ok used v right.1 right.2
      refine ⟨m', _, done, replaced, ?_⟩
      have next := positionOf_next right.1
      unfold PastGrowth at right
      rw [size_setPadded]
      omega
  · split
    · rename_i off
      obtain ⟨m', failed, complained⟩ := insertPage_threw tidy used v env off
      exact ⟨m', failed, complained, stays complained⟩
    · rename_i inside
      split
      · rename_i past
        obtain ⟨m', failed, complained⟩ :=
          insertPage_refused tidy used v env inside (limited.trans_lt past) past
        exact ⟨m', failed, complained, stays complained⟩
      · rename_i fits
        obtain ⟨m', done, replaced⟩ := insertPage_ok used v env inside (.inr (not_lt.mp fits))
        refine ⟨m', _, done, replaced, ?_⟩
        rw [size_insertPadded]
        exact spacious_iff inside limited (.inr (not_lt.mp fits))

/-- There is room for a third page, and none for one so far out that the last page of all would be
only part of the gap. -/
theorem slate_limited : Spacious 3 2 ∧ ∀ env,
    (∃ m' after, insertPage (.book ⟨0⟩) (.numeral 3) (.numeral 7) env slate = .ok () m' ∧
      m'.heap.get? ⟨0⟩ = some (.book after) ∧ after.size ≤ maxLength) ∧
    ∃ m', insertPage (.book ⟨0⟩) (.numeral 4294967297) (.numeral 7) env slate = .error .thrown m' ∧
      m'.heap.get? ⟨0⟩ = some (.book #[.numeral 1, .numeral 2]) := by
  have spacious : Spacious 3 2 := by decide
  have small : (#[.numeral 1, .numeral 2] : Array Value).size ≤ maxLength := by decide
  refine ⟨spacious, fun env => ⟨?_, ?_⟩⟩
  · obtain ⟨_, inserted⟩ :=
      pages_stay_limited slate_tidy slate_book slate_rooted small 3 (.numeral 7) env
    rw [if_neg (by decide), if_neg (by decide)] at inserted
    obtain ⟨m', after, done, replaced, limited⟩ := inserted
    exact ⟨m', after, done, replaced.object, limited.mpr spacious⟩
  · obtain ⟨_, inserted⟩ :=
      pages_stay_limited slate_tidy slate_book slate_rooted small 4294967297 (.numeral 7) env
    rw [if_neg (by decide), if_pos (by decide)] at inserted
    obtain ⟨m', failed, _, same⟩ := inserted
    exact ⟨m', failed, same⟩

/-- Only the gap is measured: the last page that a book may have is filled in before the inserted one,
and where the gap is too long the complaint names one page less than there would be. -/
theorem slate_overgrown :
    slate.heap.get? ⟨0⟩ = some (.book #[.numeral 1, .numeral 2]) ∧ ∀ env,
    (∃ m' after, insertPage (.book ⟨0⟩) (.numeral 4294967296) (.numeral 7) env slate = .ok () m' ∧
      m'.heap.get? ⟨0⟩ = some (.book after) ∧ after.size = maxLength + 1) ∧
    ∃ m', insertPage (.book ⟨0⟩) (.numeral 4294967297) (.numeral 7) env slate = .error .thrown m' ∧
      slate.Complained slate.builtins.exception (Complaint.bookGrowth (maxLength + 1)).message m' := by
  apply And.intro slate_book
  intro env
  constructor
  · obtain ⟨m', done, replaced⟩ := insertPage_ok (i := 4294967296) slate_book (.numeral 7) env
      (by decide) (by decide)
    exact ⟨m', _, done, replaced.object, size_insertPadded _⟩
  · exact insertPage_refused (i := 4294967297) slate_tidy slate_book (.numeral 7) env
      (by decide) (by decide) (by decide)

end Run

end JourneyMachine
