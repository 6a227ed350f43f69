import JourneyMachine.Proofs.Containers.Throws
import JourneyMachine.Proofs.Equality.Termination

namespace JourneyMachine

/-- Zero, or before the first of so many pages. -/
def OffBook (i : Int64) (n : Nat) : Prop := i = 0 ∨ (i.toInt < 0 ∧ n < -i.toInt)

/-- After the last of so many pages, and further than books grow. -/
def PastGrowth (i : Int64) (n : Nat) : Prop := n < i.toInt ∧ Run.maxLength < i.toInt

instance (i : Int64) (n : Nat) : Decidable (OffBook i n) := inferInstanceAs (Decidable (_ ∨ _))

instance (i : Int64) (n : Nat) : Decidable (PastGrowth i n) := inferInstanceAs (Decidable (_ ∧ _))

/-- The position of the page that an index means. -/
def positionOf (i : Int64) (n : Nat) : Nat :=
  (if 0 < i.toInt then i.toInt - 1 else n + i.toInt).toNat

def indexComplaint (i : Int64) : Complaint :=
  if i = 0 then .zeroIndex
  else if i.toInt < 0 then .indexRange i
  else .bookGrowth i.toInt.toNat

section Arithmetic

variable {i : Int64} {n : Nat}

theorem toInt_eq_zero : i.toInt = 0 ↔ i = 0 := by
  rw [← Int64.toInt_inj]
  rfl

theorem sub_one_exact (positive : 0 < i.toInt) : (i - 1).toInt = i.toInt - 1 := by
  have below := i.toInt_lt
  rw [Int64.toInt_sub, Int64.toInt_one]
  apply Int.bmod_eq_of_le <;> omega

theorem add_length_exact (negative : i.toInt < 0) (small : n < 2 ^ 63) :
    (i + Int64.ofNat n).toInt = i.toInt + n := by
  have above := i.le_toInt
  rw [Int64.toInt_add, Int64.toInt_ofNat_of_lt small]
  apply Int.bmod_eq_of_le <;> omega

theorem positionOf_lt (small : n < 2 ^ 63) : positionOf i n + 1 < 2 ^ 64 := by
  have below := i.toInt_lt
  unfold positionOf
  split <;> omega

end Arithmetic

/-- A book with other pages; no other object changes. -/
def Object.mapPages (f : Array Value → Array Value) : Object → Object
  | .book pages => .book (f pages)
  | o => o

def Machine.rewrite (m : Machine) (h : Handle) (f : Array Value → Array Value) : Machine :=
  { m with heap := m.heap.modify h (Object.mapPages f) }

namespace Run

variable {env : Env} {m : Machine} {h : Handle} {pages : Array Value} {i : Int64} {n : Nat}

theorem pagePosition_ok (inside : ¬ OffBook i n) :
    pagePosition i n env m = .ok (positionOf i n) m := by
  unfold OffBook at inside
  have other : i ≠ 0 := fun zero => inside (.inl zero)
  have enough : ¬ (if 0 < i.toInt then i.toInt - 1 else i.toInt + n) < 0 := by
    split <;> omega
  simp only [pagePosition, other, enough, if_false, positionOf, Int.add_comm (n : Int)]
  rfl

theorem pagePosition_threw (tidy : m.heap.Tidy) (off : OffBook i n) :
    ∃ m', pagePosition i n env m = .error .thrown m' ∧
      m.Complained m.builtins.exception (indexComplaint i).message m' := by
  unfold indexComplaint pagePosition
  rcases off with rfl | ⟨negative, short⟩
  · exact complain_threw tidy .zeroIndex
  · have other : i ≠ 0 := by
      rintro rfl
      exact absurd negative (by decide)
    have before : (if 0 < i.toInt then i.toInt - 1 else i.toInt + n) < 0 := by
      split <;> omega
    simp only [other, before, negative, if_false, if_true]
    exact complain_threw tidy (.indexRange i)

theorem editBook_eq {f : Array Value → Array Value} (used : m.heap.get? h = some (.book pages)) :
    editBook h f env m = .ok () (m.rewrite h f) := by
  have seen : (book h >>= fun _ => pure ()) env m = .ok () m := bind_ok (read_book used)
  have looked : (discard (book h) : Run PUnit) env m = .ok () m := seen
  exact bind_ok looked

theorem replaced_rewrite {f : Array Value → Array Value}
    (used : m.heap.get? h = some (.book pages)) :
    m.Replaced h (.book (f pages)) (m.rewrite h f) :=
  Machine.replaced (f := Object.mapPages f) used .book

theorem editBook_ok {f : Array Value → Array Value} (used : m.heap.get? h = some (.book pages)) :
    ∃ m', editBook h f env m = .ok () m' ∧ m.Replaced h (.book (f pages)) m' :=
  ⟨_, editBook_eq used, replaced_rewrite used⟩

theorem growBook_ok {length : Nat} (used : m.heap.get? h = some (.book pages))
    (fits : length ≤ pages.size ∨ length ≤ maxLength) :
    ∃ m', growBook h length env m = .ok () m' ∧
      m.Replaced h (.book (pages ++ Array.replicate (length - pages.size) .ni)) m' := by
  have read : growBook h length env m = (if length ≤ pages.size then return ()
      else if maxLength < length then complain (.bookGrowth length)
      else editBook h fun pages => pages ++ Array.replicate (length - pages.size) .ni : Run Unit)
        env m := bind_ok (read_book used)
  rw [read]
  by_cases enough : length ≤ pages.size
  · rw [if_pos enough]
    apply Exists.intro m
    constructor
    · rfl
    · rw [Nat.sub_eq_zero_of_le enough, Array.replicate_zero, Array.append_empty]
      exact ⟨⟨used, fun _ _ => rfl, fun _ refers => refers⟩, rfl, rfl, id⟩
  · rw [if_neg enough, if_neg (by omega)]
    exact editBook_ok used

theorem growBook_threw {length : Nat} (tidy : m.heap.Tidy)
    (used : m.heap.get? h = some (.book pages)) (short : pages.size < length)
    (past : maxLength < length) :
    ∃ m', growBook h length env m = .error .thrown m' ∧
      m.Complained m.builtins.exception (Complaint.bookGrowth length).message m' := by
  have read : growBook h length env m = (complain (.bookGrowth length) : Run Unit) env m := by
    refine (bind_ok (read_book used)).trans ?_
    rw [if_neg (by omega), if_pos past]
  rw [read]
  exact complain_threw tidy (.bookGrowth length)

theorem indexAssign_book (used : m.heap.get? h = some (.book pages)) (v : Value) :
    indexAssign (.book h) (.numeral i) v env m = (do
      let position ← pagePosition i pages.size
      growBook h (position + 1)
      editBook h (·.setIfInBounds position v)) env m := by
  have numeral : toNumeral (.numeral i) env m = .ok i m := rfl
  exact (bind_ok numeral).trans (bind_ok (read_book used))

theorem index_book (used : m.heap.get? h = some (.book pages)) :
    index (.book h) (.numeral i) env m = (do
      let position ← pagePosition i pages.size
      return (← book h).getD position .ni) env m := by
  have numeral : toNumeral (.numeral i) env m = .ok i m := rfl
  exact (bind_ok numeral).trans (bind_ok (read_book used))

theorem size_setPadded (p : Nat) (v : Value) :
    (setPadded pages p v).size = max pages.size (p + 1) := by
  simp only [setPadded, Array.size_setIfInBounds, Array.size_append, Array.size_replicate]
  omega

theorem getElem?_setPadded {p j : Nat} (v : Value) (inside : j < (setPadded pages p v).size) :
    (setPadded pages p v)[j]? = some (if j = p then v else pages.getD j .ni) := by
  rw [size_setPadded] at inside
  have size : (pages ++ Array.replicate (p + 1 - pages.size) Value.ni).size =
      max pages.size (p + 1) := by
    simp only [Array.size_append, Array.size_replicate]
    omega
  rw [setPadded, Array.getElem?_setIfInBounds]
  by_cases here : p = j
  · subst here
    rw [if_pos rfl, if_pos (by omega), if_pos rfl]
  · rw [if_neg here, if_neg (Ne.symm here), Array.getElem?_append]
    by_cases old : j < pages.size
    · simp [old]
    · simp only [old, if_false, Array.getElem?_replicate]
      rw [if_pos (by omega)]
      simp [old]

theorem indexAssign_threw (tidy : m.heap.Tidy) (used : m.heap.get? h = some (.book pages))
    (v : Value) (wrong : OffBook i pages.size ∨ PastGrowth i pages.size) :
    ∃ m', indexAssign (.book h) (.numeral i) v env m = .error .thrown m' ∧
      m.Complained m.builtins.exception (indexComplaint i).message m' := by
  rw [indexAssign_book used]
  rcases wrong with off | ⟨past, beyond⟩
  · obtain ⟨m', failed, complained⟩ := pagePosition_threw tidy off
    exact ⟨m', bind_error failed, complained⟩
  · have inside : ¬ OffBook i pages.size := by
      rintro (rfl | ⟨negative, _⟩)
      · exact absurd past (by simp)
      · omega
    have position : positionOf i pages.size + 1 = i.toInt.toNat := by
      unfold positionOf
      split <;> omega
    have complaint : indexComplaint i = .bookGrowth (positionOf i pages.size + 1) := by
      have other : i ≠ 0 := fun zero => inside (.inl zero)
      rw [indexComplaint, if_neg other, if_neg (by omega), position]
    obtain ⟨m', failed, complained⟩ := growBook_threw tidy used
      (show pages.size < positionOf i pages.size + 1 by omega) (by omega)
    rw [complaint]
    exact ⟨m', (bind_ok (pagePosition_ok inside)).trans (bind_error failed), complained⟩

theorem indexAssign_ok (used : m.heap.get? h = some (.book pages)) (v : Value)
    (inside : ¬ OffBook i pages.size) (fits : ¬ PastGrowth i pages.size) :
    ∃ m', indexAssign (.book h) (.numeral i) v env m = .ok () m' ∧
      m.Replaced h (.book (setPadded pages (positionOf i pages.size) v)) m' := by
  have room : positionOf i pages.size + 1 ≤ pages.size ∨ positionOf i pages.size + 1 ≤ maxLength := by
    unfold OffBook at inside
    unfold PastGrowth at fits
    have other : i.toInt ≠ 0 := fun zero => inside (.inl (toInt_eq_zero.mp zero))
    unfold positionOf
    split <;> omega
  obtain ⟨m₁, grown, first⟩ := growBook_ok used room
  obtain ⟨m₂, stored, second⟩ := editBook_ok (f := (·.setIfInBounds _ v)) first.object
  apply Exists.intro m₂
  constructor
  · rw [indexAssign_book used]
    exact (bind_ok (pagePosition_ok inside)).trans ((bind_ok grown).trans stored)
  · exact first.trans second

/-- Indexing a book. Assigning throws exactly where there is no such page and none may be added; the
complaint is all that is new then. Otherwise the book is filled with ni as far as the page and the
page is replaced, and nothing else changes. Reading throws exactly where an index is before the first
page, and changes nothing otherwise. What positions are computed from stays within 64 bits. -/
theorem book_indexed (tidy : m.heap.Tidy) (used : m.heap.get? h = some (.book pages))
    (rooted : m.heap.Reachable m.roots h) (i : Int64) (v : Value) (env : Env) :
    let p := positionOf i pages.size
    (OffBook i pages.size ∨ PastGrowth i pages.size →
      ∃ m', indexAssign (.book h) (.numeral i) v env m = .error .thrown m' ∧
        m.Complained m.builtins.exception (indexComplaint i).message m' ∧
        m'.heap.get? h = some (.book pages)) ∧
    (¬ (OffBook i pages.size ∨ PastGrowth i pages.size) →
      ∃ m' after, indexAssign (.book h) (.numeral i) v env m = .ok () m' ∧
        m'.heap.get? h = some (.book after) ∧ after.size = max pages.size (p + 1) ∧
        (∀ j < after.size, after[j]? = some (if j = p then v else pages.getD j .ni)) ∧
        (∀ k, k ≠ h → m'.heap.get? k = m.heap.get? k) ∧ m' = { m with heap := m'.heap }) ∧
    (OffBook i pages.size → ∃ m', index (.book h) (.numeral i) env m = .error .thrown m' ∧
      m.Complained m.builtins.exception (indexComplaint i).message m' ∧
      m'.heap.get? h = some (.book pages)) ∧
    (¬ OffBook i pages.size → index (.book h) (.numeral i) env m = .ok (pages.getD p .ni) m) ∧
    (pages.size < 2 ^ 63 → (0 < i.toInt → (i - 1).toInt = i.toInt - 1) ∧
      (i.toInt < 0 → (i + Int64.ofNat pages.size).toInt = i.toInt + pages.size) ∧
      p + 1 < 2 ^ 64) := by
  intro p
  have stays : ∀ {m'}, m.Complained m.builtins.exception (indexComplaint i).message m' →
      m'.heap.get? h = some (.book pages) := fun complained =>
    (complained.retains.kept h rooted).trans used
  refine ⟨fun wrong => ?_, fun right => ?_, fun off => ?_, fun inside => ?_, fun small => ?_⟩
  · obtain ⟨m', failed, complained⟩ := indexAssign_threw tidy used v wrong
    exact ⟨m', failed, complained, stays complained⟩
  · rw [not_or] at right
    obtain ⟨m', done, replaced⟩ := indexAssign_ok used v right.1 right.2
    exact ⟨m', _, done, replaced.object, size_setPadded p v, fun j => getElem?_setPadded v,
      replaced.others, replaced.outside⟩
  · obtain ⟨m', failed, complained⟩ := pagePosition_threw tidy off
    rw [index_book used]
    exact ⟨m', bind_error failed, complained, stays complained⟩
  · rw [index_book used]
    exact (bind_ok (pagePosition_ok inside)).trans (bind_ok (read_book used))
  · exact ⟨sub_one_exact, fun negative => add_length_exact negative small, positionOf_lt small⟩

def slate : Machine :=
  { bare [.book #[.numeral 1, .numeral 2]] with pinned := [.book ⟨0⟩] }

theorem slate_book : slate.heap.get? ⟨0⟩ = some (.book #[.numeral 1, .numeral 2]) := bare_get _ ⟨0⟩

theorem slate_tidy : slate.heap.Tidy := bare_tidy _

theorem slate_rooted : slate.heap.Reachable slate.roots ⟨0⟩ :=
  .root (by decide) slate_book

/-- The fourth page can be assigned and the third is ni then; the page before the last two cannot be
read, nor the one after all that a book may have be assigned. -/
theorem slate_indexed : ¬ (OffBook 4 2 ∨ PastGrowth 4 2) ∧ OffBook (-3) 2 ∧
    PastGrowth 4294967296 2 ∧ ∀ env,
    (∃ m' after, indexAssign (.book ⟨0⟩) (.numeral 4) (.numeral 7) env slate = .ok () m' ∧
      m'.heap.get? ⟨0⟩ = some (.book after) ∧ after.size = 4 ∧ after[2]? = some .ni ∧
      after[3]? = some (.numeral 7)) ∧
    (∃ m', index (.book ⟨0⟩) (.numeral (-3)) env slate = .error .thrown m') ∧
    ∃ m', indexAssign (.book ⟨0⟩) (.numeral 4294967296) .ni env slate = .error .thrown m' ∧
      m'.heap.get? ⟨0⟩ = some (.book #[.numeral 1, .numeral 2]) := by
  have right : ¬ (OffBook 4 2 ∨ PastGrowth 4 2) := by decide
  have off : OffBook (-3) 2 := by decide
  have past : PastGrowth 4294967296 2 := by decide
  refine ⟨right, off, past, fun env => ⟨?_, ?_, ?_⟩⟩
  · obtain ⟨_, assigned, _⟩ := book_indexed slate_tidy slate_book slate_rooted 4 (.numeral 7) env
    obtain ⟨m', after, done, there, size, content, _⟩ := assigned right
    have four : after.size = 4 := size
    exact ⟨m', after, done, there, four, content 2 (by omega), content 3 (by omega)⟩
  · obtain ⟨_, _, read, _⟩ := book_indexed slate_tidy slate_book slate_rooted (-3) .ni env
    obtain ⟨m', failed, _⟩ := read off
    exact ⟨m', failed⟩
  · obtain ⟨refused, _⟩ := book_indexed slate_tidy slate_book slate_rooted 4294967296 .ni env
    obtain ⟨m', failed, _, same⟩ := refused (.inr past)
    exact ⟨m', failed, same⟩

end Run

end JourneyMachine
