import JourneyMachine.Proofs.Closure.Extents

/-! What a pattern means. A pattern admits a candidate as its pieces do: these are equations between
the pieces, and with circles through books there may be several solutions. A search that keeps the
books that it is inside of, and finds nothing in them again, meets each piece on many paths. Where
there are no circles all of them agree; where nothing is negated the pieces that it finds on the
empty path are the least solution, since a shortest derivation passes through no book twice. -/

namespace JourneyMachine

namespace Heap

variable {heap : Heap} {candidate u v w : Value} {S T : Value → Prop} {path : List Handle}
  {h : Handle} {n : Nat}

section Pieces

inductive Operand (heap : Heap) : Value → Value → Prop
  | operand {h : Handle} {o : Other} {v : Value} :
      heap.get? h = some (.other o) → v ∈ o.values → Operand heap (.other h) v

inductive Piece (heap : Heap) : Value → Value → Prop
  | page {h : Handle} {pages : Array Value} {v : Value} :
      heap.get? h = some (.book pages) → v ∈ pages.toList → Piece heap (.book h) v
  | operand {u v : Value} : heap.Operand u v → Piece heap u v

def Inside (heap : Heap) : Value → Value → Prop := Relation.ReflTransGen heap.Piece

/-- A value that is matched without running a journey or throwing. -/
def Formal (heap : Heap) : Value → Prop
  | .imitation _ | .journey _ | .codex _ => False
  | .other h => ∀ journey, heap.get? h ≠ some (.other (.host journey))
  | _ => True

/-- A value whose object is of genus `Other`. -/
def Helper (heap : Heap) (v : Value) (o : Other) : Prop :=
  ∃ h, v = .other h ∧ heap.get? h = some (.other o)

def Negates (heap : Heap) (v : Value) : Prop := ∃ inner, heap.Helper v (.opposite inner)

/-- A pattern of scalars, texts, forms, scrolls, books and helpers. Operands alone do not lead round
in circles. -/
structure Pattern (heap : Heap) (v : Value) : Prop where
  refers : heap.Refers v
  formal : ∀ w, heap.Inside v w → heap.Formal w
  guarded : ∀ w, heap.Inside v w → Acyclic heap.Operand w

theorem Closed.leads_operand (closed : heap.Closed) : heap.Leads heap.Operand where
  inHeap := by
    rintro _ _ ⟨used, member⟩
    rfl
  refers := by
    rintro _ v ⟨used, member⟩
    exact closed _ _ used v member

theorem Closed.leads_piece (closed : heap.Closed) : heap.Leads heap.Piece where
  inHeap := by
    rintro _ _ (⟨used, member⟩ | operand)
    · rfl
    · exact closed.leads_operand.inHeap _ _ operand
  refers := by
    rintro _ v (⟨used, member⟩ | operand)
    · exact closed _ _ used v member
    · exact closed.leads_operand.refers _ _ operand

theorem Pattern.inside (closed : heap.Closed) (pattern : heap.Pattern v)
    (inside : heap.Inside v w) : heap.Pattern w where
  refers := by
    rcases inside.cases_tail with rfl | ⟨u, _, last⟩
    · exact pattern.refers
    · exact closed.leads_piece.refers u w last
  formal u deeper := pattern.formal u (inside.trans deeper)
  guarded u deeper := pattern.guarded u (inside.trans deeper)

theorem Pattern.piece (closed : heap.Closed) (pattern : heap.Pattern v) (piece : heap.Piece v w) :
    heap.Pattern w := pattern.inside closed (.single piece)

/-- A value without pieces is a pattern of its own. -/
theorem Pattern.single (refers : heap.Refers v) (formal : heap.Formal v)
    (alone : ∀ w, ¬ heap.Piece v w) : heap.Pattern v := by
  have only : ∀ w, heap.Inside v w → w = v := by
    intro w inside
    rcases inside.cases_head with same | ⟨u, piece, _⟩
    · exact same.symm
    · exact (alone u piece).elim
  constructor
  · exact refers
  · rintro w inside
    exact only w inside ▸ formal
  · intro w inside u deeper circle
    obtain rfl := only w inside
    rcases deeper.cases_head with rfl | ⟨x, operand, _⟩
    · obtain ⟨x, operand, _⟩ := Relation.TransGen.head'_iff.mp circle
      exact alone x (.operand operand)
    · exact alone x (.operand operand)

theorem Helper.piece {o : Other} (helper : heap.Helper v o) (member : w ∈ o.values) :
    heap.Piece v w := by
  obtain ⟨h, rfl, used⟩ := helper
  exact .operand (.operand used member)

end Pieces

section Equations

/-- What a helper makes of what is known of its operands; other objects admit themselves. -/
def Combines (S : Value → Prop) (itself : Prop) : Other → Prop
  | .both lhs rhs => S lhs ∧ S rhs
  | .either lhs rhs => S lhs ∨ S rhs
  | .opposite inner => ¬ S inner
  | .host _ | .scroll _ => itself

/-- Whether a pattern admits a candidate, if that is known of its pieces. -/
def Admits (heap : Heap) (candidate : Value) (S : Value → Prop) : Value → Prop
  | .form h => ∃ i own, candidate = .imitation i ∧ heap.get? i = some (.imitation own) ∧
      heap.Descends own.form h
  | .text h => ∃ content, heap.get? h = some (.text content) ∧
      ((content = candidate.genus.name ∧ candidate.genus ≠ .other) ∨
        ∃ k, candidate = .text k ∧ heap.get? k = some (.text content))
  | .book h => ∃ pages, heap.get? h = some (.book pages) ∧ ∃ page ∈ pages.toList, S page
  | .other h => ∃ o, heap.get? h = some (.other o) ∧ Combines S (candidate = .other h) o
  | v => candidate = v

theorem admits_helper {o : Other} (helper : heap.Helper v o) :
    heap.Admits candidate S v ↔ Combines S (candidate = v) o := by
  obtain ⟨h, rfl, used⟩ := helper
  simp [Admits, used]

theorem admits_congr (same : ∀ w, heap.Piece v w → (S w ↔ T w)) :
    heap.Admits candidate S v ↔ heap.Admits candidate T v := by
  cases v with
  | book h =>
    apply exists_congr
    intro pages
    apply and_congr_right
    intro used
    apply exists_congr
    intro page
    exact and_congr_right fun member => same page (.page used member)
  | other h =>
    apply exists_congr
    intro o
    apply and_congr_right
    intro used
    have operands : ∀ w ∈ o.values, (S w ↔ T w) := fun w member =>
      same w (.operand (.operand used member))
    cases o <;> simp_all [Combines, Other.values]
  | _ => exact Iff.rfl

/-- Without a complement only what holds of a piece is used. -/
theorem admits_mono (positive : ¬ heap.Negates v) (sub : ∀ w, heap.Piece v w → S w → T w)
    (admits : heap.Admits candidate S v) : heap.Admits candidate T v := by
  cases v with
  | book h =>
    obtain ⟨pages, used, page, member, holds⟩ := admits
    exact ⟨pages, used, page, member, sub page (.page used member) holds⟩
  | other h =>
    obtain ⟨o, used, combines⟩ := admits
    have operands : ∀ w ∈ o.values, S w → T w := fun w member =>
      sub w (.operand (.operand used member))
    apply Exists.intro o
    apply And.intro used
    cases o with
    | both lhs rhs =>
      apply combines.imp
      · exact operands lhs (by simp [Other.values])
      · exact operands rhs (by simp [Other.values])
    | either lhs rhs =>
      apply combines.imp
      · exact operands lhs (by simp [Other.values])
      · exact operands rhs (by simp [Other.values])
    | opposite inner => exact (positive ⟨inner, h, rfl, used⟩).elim
    | host journey => exact combines
    | scroll scroll => exact combines
  | _ => exact admits

end Equations

section Searching

def On (path : List Handle) (v : Value) : Prop := ∃ h ∈ path, v = .book h

def onto (path : List Handle) : Value → List Handle
  | .book h => h :: path
  | _ => path

/-- What a search of so many levels finds on a path. -/
def Found (heap : Heap) (candidate : Value) : Nat → List Handle → Value → Prop
  | 0, _, _ => False
  | n + 1, path, v => ¬ On path v ∧ heap.Admits candidate (heap.Found candidate n (onto path v)) v

structure Trail (heap : Heap) (path : List Handle) : Prop where
  nodup : path.Nodup
  used : ∀ h ∈ path, ∃ pages, heap.get? h = some (.book pages)

/-- How many levels there can be below a value on a path: the books that are not on it, and a chain
of helpers to the next of them. -/
noncomputable def reserve (heap : Heap) (path : List Handle) (v : Value) : Nat :=
  (heap.capacity - path.length) * (heap.capacity + 1) + (heap.extent heap.Operand v).card

theorem Trail.nil : heap.Trail [] := ⟨List.nodup_nil, by simp⟩

theorem Trail.length_le (trail : heap.Trail path) : path.length ≤ heap.capacity := by
  have slots : (path.map Handle.slot).Nodup :=
    trail.nodup.map fun h k same => by cases h; cases k; cases same; rfl
  have below : path.map Handle.slot ⊆ List.range heap.capacity := by
    intro slot member
    obtain ⟨h, inside, rfl⟩ := List.mem_map.mp member
    obtain ⟨pages, used⟩ := trail.used h inside
    exact List.mem_range.mpr (lt_capacity used)
  simpa using (List.subperm_of_subset slots below).length_le

theorem Trail.onto (trail : heap.Trail path) (refers : heap.Refers v) (fresh : ¬ On path v) :
    heap.Trail (onto path v) := by
  cases v with
  | book h =>
    obtain ⟨o, used, genus⟩ := (refers_book).mp refers
    cases o <;> try contradiction
    constructor
    · exact List.nodup_cons.mpr ⟨fun member => fresh ⟨h, member, rfl⟩, trail.nodup⟩
    · exact List.forall_mem_cons.mpr ⟨⟨_, used⟩, trail.used⟩
  | _ => exact trail

theorem reserve_piece (closed : heap.Closed) (pattern : heap.Pattern v) (trail : heap.Trail path)
    (fresh : ¬ On path v) (piece : heap.Piece v w) :
    heap.reserve (onto path v) w < heap.reserve path v := by
  have longer := (trail.onto pattern.refers fresh).length_le
  cases piece with
  | @page h pages _ used member =>
    have chain := extent_le_capacity heap heap.Operand w
    have room : heap.capacity - path.length = heap.capacity - (h :: path).length + 1 := by
      simp only [Heap.onto, List.length_cons] at longer ⊢
      omega
    simp only [reserve, Heap.onto, room, Nat.add_mul]
    omega
  | operand operand =>
    have fewer := closed.leads_operand.extent_lt pattern.refers (pattern.guarded v .refl) operand
    cases operand with
    | operand used member =>
      simp only [reserve, Heap.onto]
      omega

theorem found_stable (closed : heap.Closed) {k : Nat} (pattern : heap.Pattern v)
    (trail : heap.Trail path) (enough : heap.reserve path v < n) (more : heap.reserve path v < k) :
    heap.Found candidate n path v ↔ heap.Found candidate k path v := by
  induction n generalizing path v k with
  | zero => omega
  | succ n ih =>
    cases k with
    | zero => omega
    | succ k =>
      apply and_congr_right
      intro fresh
      apply admits_congr
      intro w piece
      have less := reserve_piece closed pattern trail fresh piece
      exact ih (pattern.piece closed piece) (trail.onto pattern.refers fresh) (by omega) (by omega)

/-- What a search finds that is deep enough. -/
def Seen (heap : Heap) (candidate : Value) (path : List Handle) (v : Value) : Prop :=
  heap.Found candidate (heap.reserve path v + 1) path v

/-- What is found depends on what is found in the pieces further along the path. -/
theorem seen_iff (closed : heap.Closed) (pattern : heap.Pattern v) (trail : heap.Trail path) :
    heap.Seen candidate path v ↔
      ¬ On path v ∧ heap.Admits candidate (heap.Seen candidate (onto path v)) v := by
  apply and_congr_right
  intro fresh
  apply admits_congr
  intro w piece
  apply found_stable closed (pattern.piece closed piece) (trail.onto pattern.refers fresh)
  · exact reserve_piece closed pattern trail fresh piece
  · exact Nat.lt_succ_self _

end Searching

section Meaning

theorem not_on_nil : ¬ On [] v := by simp [On]

theorem mem_onto (member : h ∈ onto path v) : h ∈ path ∨ v = .book h := by
  cases v with
  | book k =>
    rcases List.mem_cons.mp member with rfl | earlier
    · exact .inr rfl
    · exact .inl earlier
  | _ => exact .inl member

/-- Without circles what is found in a piece is the same on every path to it. -/
theorem seen_acyclic (closed : heap.Closed) (pattern : heap.Pattern v)
    (acyclic : Acyclic heap.Piece v) (trail : heap.Trail path)
    (apart : ∀ w, heap.Inside v w → ¬ On path w) :
    heap.Seen candidate path v ↔ heap.Admits candidate (heap.Seen candidate []) v := by
  induction size : (heap.extent heap.Piece v).card using Nat.strong_induction_on
    generalizing v path with
  | _ size ih =>
    rw [seen_iff closed pattern trail, and_iff_right (apart v .refl)]
    apply admits_congr
    intro w piece
    have fewer := closed.leads_piece.extent_lt pattern.refers acyclic piece
    have below : ∀ {path}, heap.Trail path → (∀ u, heap.Inside w u → ¬ On path u) →
        (heap.Seen candidate path w ↔ heap.Admits candidate (heap.Seen candidate []) w) :=
      fun trail apart => ih _ (size ▸ fewer) (pattern.piece closed piece)
        (acyclic.below (.single piece)) trail apart rfl
    rw [below .nil fun _ _ => not_on_nil]
    apply below (trail.onto pattern.refers (apart v .refl))
    rintro _ inside ⟨h, member, rfl⟩
    rcases mem_onto member with earlier | rfl
    · exact apart _ (.head piece inside) ⟨h, earlier, rfl⟩
    · exact acyclic _ .refl (.head' piece inside)

/-- Without circles the equations have one solution. -/
theorem admits_unique (closed : heap.Closed) (pattern : heap.Pattern v)
    (acyclic : Acyclic heap.Piece v)
    (first : ∀ w, heap.Inside v w → (S w ↔ heap.Admits candidate S w))
    (second : ∀ w, heap.Inside v w → (T w ↔ heap.Admits candidate T w)) : S v ↔ T v := by
  induction size : (heap.extent heap.Piece v).card using Nat.strong_induction_on generalizing v with
  | _ size ih =>
    rw [first v .refl, second v .refl]
    apply admits_congr
    intro w piece
    have fewer := closed.leads_piece.extent_lt pattern.refers acyclic piece
    exact ih _ (size ▸ fewer) (pattern.piece closed piece) (acyclic.below (.single piece))
      (fun u inside => first u (.head piece inside)) (fun u inside => second u (.head piece inside))
      rfl

section Complements

variable {x y a b : Value}
  (solves : ∀ z, heap.Inside u z ∨ heap.Inside w z → (S z ↔ heap.Admits candidate S z))
  (complement : heap.Helper u (.opposite v)) (left : heap.Helper x (.opposite a))
  (right : heap.Helper y (.opposite b))

include solves complement left right

/-- The complement of a conjunction is the disjunction of the complements. -/
theorem opposite_both (both : heap.Helper v (.both a b)) (either : heap.Helper w (.either x y)) :
    S u ↔ S w := by
  have below : heap.Inside u v := .single (complement.piece (by simp [Other.values]))
  have above : ∀ z ∈ [x, y], heap.Inside w z := fun z member => .single (either.piece member)
  rw [solves u (.inl .refl), admits_helper complement, solves w (.inr .refl), admits_helper either]
  simp only [Combines]
  rw [solves v (.inl below), admits_helper both, solves x (.inr (above x (by simp))),
    admits_helper left, solves y (.inr (above y (by simp))), admits_helper right]
  exact not_and_or

/-- The complement of a disjunction is the conjunction of the complements. -/
theorem opposite_either (either : heap.Helper v (.either a b)) (both : heap.Helper w (.both x y)) :
    S u ↔ S w := by
  have below : heap.Inside u v := .single (complement.piece (by simp [Other.values]))
  have above : ∀ z ∈ [x, y], heap.Inside w z := fun z member => .single (both.piece member)
  rw [solves u (.inl .refl), admits_helper complement, solves w (.inr .refl), admits_helper both]
  simp only [Combines]
  rw [solves v (.inl below), admits_helper either, solves x (.inr (above x (by simp))),
    admits_helper left, solves y (.inr (above y (by simp))), admits_helper right]
  exact not_or

end Complements

/-- What is found is admitted by every solution, if nothing is negated. -/
theorem found_least (positive : ∀ w, heap.Inside v w → ¬ heap.Negates w)
    (solves : ∀ w, heap.Inside v w → heap.Admits candidate T w → T w)
    (found : heap.Found candidate n path v) : T v := by
  induction n generalizing path v with
  | zero => exact found.elim
  | succ n ih =>
    apply solves v .refl
    apply admits_mono (positive v .refl) _ found.2
    intro w piece later
    exact ih (fun u inside => positive u (.head piece inside))
      (fun u inside => solves u (.head piece inside)) later

/-- What follows from the equations in so many steps. -/
def Derives (heap : Heap) (candidate : Value) : Nat → Value → Prop
  | 0, _ => False
  | n + 1, v => heap.Admits candidate (heap.Derives candidate n) v

theorem derives_succ (positive : ∀ w, heap.Inside v w → ¬ heap.Negates w)
    (derives : heap.Derives candidate n v) : heap.Derives candidate (n + 1) v := by
  induction n generalizing v with
  | zero => exact derives.elim
  | succ n ih =>
    apply admits_mono (positive v .refl) _ derives
    intro w piece
    exact ih fun u inside => positive u (.head piece inside)

theorem derives_le {k : Nat} (positive : ∀ w, heap.Inside v w → ¬ heap.Negates w) (le : n ≤ k)
    (derives : heap.Derives candidate n v) : heap.Derives candidate k v := by
  induction le with
  | refl => exact derives
  | step _ ih => exact derives_succ positive ih

theorem derives_of_admits (positive : ∀ w, heap.Inside v w → ¬ heap.Negates w)
    (admits : heap.Admits candidate (fun w => ∃ n, heap.Derives candidate n w) v) :
    ∃ n, heap.Derives candidate n v := by
  cases v with
  | book h =>
    obtain ⟨pages, used, page, member, n, derives⟩ := admits
    exact ⟨n + 1, pages, used, page, member, derives⟩
  | other h =>
    obtain ⟨o, used, combines⟩ := admits
    have clear : ∀ u ∈ o.values, ∀ w, heap.Inside u w → ¬ heap.Negates w := fun u member w inside =>
      positive w (.head (.operand (.operand used member)) inside)
    cases o with
    | both lhs rhs =>
      obtain ⟨⟨n, left⟩, k, right⟩ := combines
      refine ⟨max n k + 1, _, used, ?_, ?_⟩
      · exact derives_le (clear lhs (by simp [Other.values])) (Nat.le_max_left n k) left
      · exact derives_le (clear rhs (by simp [Other.values])) (Nat.le_max_right n k) right
    | either lhs rhs =>
      rcases combines with ⟨n, left⟩ | ⟨n, right⟩
      · exact ⟨n + 1, _, used, .inl left⟩
      · exact ⟨n + 1, _, used, .inr right⟩
    | opposite inner => exact (positive _ .refl ⟨inner, h, rfl, used⟩).elim
    | host journey => exact ⟨1, _, used, combines⟩
    | scroll scroll => exact ⟨1, _, used, combines⟩
  | _ => exact ⟨1, admits⟩

/-- What is derived is found on every path through books that are not derived as soon. -/
theorem seen_derived (closed : heap.Closed) (pattern : heap.Pattern v)
    (positive : ∀ w, heap.Inside v w → ¬ heap.Negates w) (trail : heap.Trail path)
    (later : ∀ k ≤ n, ∀ h ∈ path, ¬ heap.Derives candidate k (.book h))
    (derives : heap.Derives candidate n v) : heap.Seen candidate path v := by
  induction n generalizing path v with
  | zero => exact derives.elim
  | succ n ih =>
    by_cases sooner : heap.Derives candidate n v
    · exact ih pattern positive trail (fun k le => later k (Nat.le_succ_of_le le)) sooner
    · have fresh : ¬ On path v := by
        rintro ⟨h, member, rfl⟩
        exact later (n + 1) (Nat.le_refl _) h member derives
      rw [seen_iff closed pattern trail]
      apply And.intro fresh
      apply admits_mono (positive v .refl) _ derives
      intro w piece derived
      apply ih (pattern.piece closed piece) (fun u inside => positive u (.head piece inside))
        (trail.onto pattern.refers fresh) _ derived
      intro k le h member soon
      rcases mem_onto member with earlier | rfl
      · exact later k (Nat.le_succ_of_le le) h earlier soon
      · exact sooner (derives_le positive le soon)

theorem seen_iff_derives (closed : heap.Closed) (pattern : heap.Pattern v)
    (positive : ∀ w, heap.Inside v w → ¬ heap.Negates w) :
    heap.Seen candidate [] v ↔ ∃ n, heap.Derives candidate n v := by
  constructor
  · exact found_least (T := fun w => ∃ n, heap.Derives candidate n w) positive fun w inside =>
      derives_of_admits fun u deeper => positive u (inside.trans deeper)
  · rintro ⟨n, derives⟩
    exact seen_derived closed pattern positive .nil (by simp) derives

/-- If nothing is negated, what is found on the empty path solves the equations. -/
theorem seen_positive (closed : heap.Closed) (pattern : heap.Pattern v)
    (positive : ∀ w, heap.Inside v w → ¬ heap.Negates w) :
    heap.Seen candidate [] v ↔ heap.Admits candidate (heap.Seen candidate []) v := by
  have pieces : ∀ w, heap.Piece v w →
      (heap.Seen candidate [] w ↔ ∃ n, heap.Derives candidate n w) := fun w piece =>
    seen_iff_derives closed (pattern.piece closed piece) fun u inside =>
      positive u (.head piece inside)
  rw [seen_iff_derives closed pattern positive, admits_congr pieces]
  constructor
  · rintro ⟨n, derives⟩
    cases n with
    | zero => exact derives.elim
    | succ n => exact admits_mono (positive v .refl) (fun w _ derived => ⟨n, derived⟩) derives
  · exact derives_of_admits positive

end Meaning

end Heap

end JourneyMachine
