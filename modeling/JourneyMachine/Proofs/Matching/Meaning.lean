import JourneyMachine.Proofs.Dispatch.Guards
import JourneyMachine.Proofs.Equality.Termination
import JourneyMachine.Proofs.Matching.Equations

namespace JourneyMachine

namespace Heap

variable {heap : Heap} {candidate v w : Value}

/-- A pattern for a candidate. If there are forms in it and the candidate is an imitation, they are
looked for above its form, where there must be no circles. -/
structure Matchable (heap : Heap) (candidate v : Value) : Prop extends heap.Pattern v where
  lineal : ∀ h i own, heap.Inside v (.form h) → candidate = .imitation i →
    heap.get? i = some (.imitation own) → Acyclic heap.Parent (.form own.form)

theorem Matchable.inside (closed : heap.Closed) (matchable : heap.Matchable candidate v)
    (inside : heap.Inside v w) : heap.Matchable candidate w where
  toPattern := matchable.toPattern.inside closed inside
  lineal h i own deeper := matchable.lineal h i own (inside.trans deeper)

end Heap

namespace Run

variable {env : Env} {m : Machine} {candidate v : Value} {path : List Handle} {h : Handle}
  {room : Nat}

section Rules

variable {c : Run Bool} {yes no yes' no' : Prop}

theorem Answers.bind {next : Bool → Run Bool} (first : Answers env m c yes no)
    (right : yes → Answers env m (next true) yes' no')
    (wrong : no → Answers env m (next false) yes' no') : Answers env m (c >>= next) yes' no' := by
  obtain ⟨same, done, holds, fails⟩ := first
  apply Answers.after done
  cases same with
  | true => exact right (holds rfl)
  | false => exact wrong (fails rfl)

theorem answers_anyM {f : Value → Run Bool} {values : List Value} {P : Value → Prop}
    (each : ∀ v ∈ values, Answers env m (f v) (P v) (¬ P v)) :
    Answers env m (values.anyM f) (∃ v ∈ values, P v) (¬ ∃ v ∈ values, P v) := by
  induction values with
  | nil => exact .pure (by simp) (by simp)
  | cons v rest ih =>
    apply (each v List.mem_cons_self).bind
    · intro holds
      exact .pure (fun _ => ⟨v, List.mem_cons_self, holds⟩) (by simp)
    · intro fails
      apply (ih fun w member => each w (List.mem_cons_of_mem _ member)).imp
      · exact fun ⟨w, member, holds⟩ => ⟨w, List.mem_cons_of_mem _ member, holds⟩
      · simp [fails]

theorem answers_iff {P Q : Prop} (same : P ↔ Q) (answers : Answers env m c P (¬ P)) :
    Answers env m c Q (¬ Q) :=
  answers.imp same.mp (mt same.mpr)

end Rules

section Matching

variable {S : Value → Prop}

theorem answers_ancestry (closed : m.heap.Closed) (refers : m.heap.Refers candidate)
    (matchable : m.heap.Matchable candidate (.form h)) :
    Answers env m (matchesWithin (room + 1) path (.form h) candidate)
      (m.heap.Admits candidate S (.form h)) (¬ m.heap.Admits candidate S (.form h)) := by
  cases candidate with
  | imitation i =>
    obtain ⟨o, used, genus⟩ := (Heap.refers_imitation).mp refers
    cases o <;> try contradiction
    rename_i own
    have form := (Heap.refers_form).mpr (closed.own used)
    have short : (m.heap.extent m.heap.Parent (.form own.form)).card ≤ m.heap.chainRoom :=
      (Heap.extent_le_capacity ..).trans (Nat.le_succ _)
    obtain ⟨b, done, meaning⟩ :=
      closed.descendsWithin_ok (k := h) m.heap.chainRoom form
        (matchable.lineal h i own .refl rfl used) short
    have searched : onHeap (·.isDescendant own.form h) env m = .ok b m := (onHeap_eq_ok).mpr ⟨done, rfl⟩
    have admits : m.heap.Admits (.imitation i) S (.form h) ↔ m.heap.Descends own.form h := by
      simp [Heap.Admits, used]
    simp only [matchesWithin]
    apply Answers.after (read_imitation used)
    exact ⟨b, searched, by simp [admits, ← meaning], by simp [admits, ← meaning]⟩
  | _ => exact .pure (by simp) (by simp [Heap.Admits])

theorem genus_named {content : String} {g : Genus} :
    Genus.ofName? content = some g ↔ content = g.name := by
  constructor
  · intro found
    have same := List.find?_some found
    exact (by simpa using same : g.name = content).symm
  · rintro rfl
    exact Genus.ofName?_name g

theorem answers_spelling (holds : m.heap.Holds .text h) (refers : m.heap.Refers candidate) :
    Answers env m (matchesWithin (room + 1) path (.text h) candidate)
      (m.heap.Admits candidate S (.text h)) (¬ m.heap.Admits candidate S (.text h)) := by
  obtain ⟨o, used, genus⟩ := holds
  cases o <;> try contradiction
  rename_i content
  obtain ⟨same, done⟩ : ∃ same, eql (.text h) candidate env m = .ok same m :=
    eql_text_ends used refers
  have equal : same = true ↔ ∃ k, candidate = .text k ∧ m.heap.get? k = some (.text content) := by
    have decided : eql (.text h) candidate env m = .ok true m ↔ _ := eql_spelled used
    simpa [done] using decided
  have compares : Answers env m (eql (.text h) candidate)
      (∃ k, candidate = .text k ∧ m.heap.get? k = some (.text content))
      (¬ ∃ k, candidate = .text k ∧ m.heap.get? k = some (.text content)) :=
    ⟨same, done, equal.mp, fun wrong holds => absurd (equal.mpr holds) (by simp [wrong])⟩
  have named : Genus.ofName? content = some candidate.genus ↔ content = candidate.genus.name :=
    genus_named
  simp only [matchesWithin]
  apply Answers.after (read_text used)
  -- A text that names the genus of the candidate fits without being compared.
  by_cases genus : Genus.ofName? content = some candidate.genus ∧ candidate.genus ≠ .other
  · rw [genus.1]
    simp only [ne_eq, genus.2, not_false_eq_true, and_self, if_true]
    apply Answers.pure
    · exact fun _ => ⟨content, used, .inl ⟨named.mp genus.1, genus.2⟩⟩
    · simp
  · have admits : m.heap.Admits candidate S (.text h) ↔
        ∃ k, candidate = .text k ∧ m.heap.get? k = some (.text content) := by
      rw [named] at genus
      simp [Heap.Admits, used, genus]
    apply answers_iff admits.symm
    split
    · rename_i found looked
      rw [if_neg]
      · exact compares
      · rintro ⟨asked, rfl⟩
        exact genus ⟨looked, asked⟩
    · exact compares

theorem answers_same : Answers env m (pure (decide (v = candidate))) (candidate = v)
    (¬ candidate = v) :=
  .pure (fun same => (of_decide_eq_true same).symm)
    fun differ same => of_decide_eq_false differ same.symm

theorem answers_scalar (scalar : v.handle? = none) :
    Answers env m (eql v candidate) (candidate = v) (¬ candidate = v) := by
  have compared : eqlWithin (env.depth + comparisonRoom m.heap.capacity + 1) [] v candidate =
      pure (decide (v = candidate)) := by
    cases v <;> first | contradiction | rfl
  have decided : eql v candidate env m = (pure (decide (v = candidate)) : Run Bool) env m :=
    congrFun (congrFun compared env) m
  rw [Answers, decided]
  exact answers_same

theorem answers_search {heap : Heap} (closed : heap.Closed) (refers : heap.Refers candidate)
    (matchable : heap.Matchable candidate v) (trail : heap.Trail path)
    (enough : heap.reserve path v < room) (same : m.heap = heap) :
    Answers env m (matchesWithin room path v candidate) (heap.Found candidate room path v)
      (¬ heap.Found candidate room path v) := by
  -- On the rounds. `found` turns the answer about the pieces into one about the pattern, whatever
  -- its genus.
  induction room generalizing v path m with
  | zero => omega
  | succ room ih =>
    subst same
    have pattern := matchable.toPattern
    have there := pattern.refers
    have formal := pattern.formal v .refl
    -- A path that goes on through the pattern has less in reserve, so one round fewer is enough.
    have pieces : ¬ Heap.On path v → ∀ w, m.heap.Piece v w → ∀ m' : Machine, m'.heap = m.heap →
        Answers env m' (matchesWithin room (Heap.onto path v) w candidate)
          (m.heap.Found candidate room (Heap.onto path v) w)
          (¬ m.heap.Found candidate room (Heap.onto path v) w) := by
      intro fresh w piece m' same
      apply ih (matchable.inside closed (.single piece)) (trail.onto pattern.refers fresh) _ same
      have less := Heap.reserve_piece closed pattern trail fresh piece
      omega
    have found : ¬ Heap.On path v → (m.heap.Admits candidate _ v ↔
        m.heap.Found candidate (room + 1) path v) := fun fresh => (and_iff_right fresh).symm
    cases v with
    | form h =>
      apply answers_iff (found (by simp [Heap.On]))
      exact answers_ancestry closed refers matchable
    | text h =>
      apply answers_iff (found (by simp [Heap.On]))
      exact answers_spelling ((Heap.refers_text).mp there) refers
    | book h =>
      simp only [matchesWithin]
      split
      · rename_i met
        apply Answers.pure (by simp)
        exact fun _ found => found.1 ⟨h, met, rfl⟩
      · rename_i unmet
        have fresh : ¬ Heap.On path (.book h) := by
          rintro ⟨k, member, same⟩
          cases same
          exact unmet member
        obtain ⟨o, used, genus⟩ := (Heap.refers_book).mp there
        cases o <;> try contradiction
        rename_i pages
        apply Answers.after (read_book used)
        have admits : (∃ page ∈ pages.toList, m.heap.Found candidate room (h :: path) page) ↔
            m.heap.Admits candidate (m.heap.Found candidate room (h :: path)) (.book h) := by
          simp [Heap.Admits, used]
        apply answers_iff (admits.trans (found fresh))
        apply Answers.withPinned
        exact answers_anyM fun page member => pieces fresh page (.page used member) _ rfl
    | other h =>
      have fresh : ¬ Heap.On path (.other h) := by simp [Heap.On]
      obtain ⟨o, used, genus⟩ := (Heap.refers_other).mp there
      cases o <;> try contradiction
      rename_i o
      have admits : Heap.Combines (m.heap.Found candidate room path) (candidate = .other h) o ↔
          m.heap.Admits candidate (m.heap.Found candidate room path) (.other h) :=
        (Heap.admits_helper ⟨h, rfl, used⟩).symm
      have operands : ∀ w ∈ o.values, Answers env m (matchesWithin room path w candidate)
          (m.heap.Found candidate room path w) (¬ m.heap.Found candidate room path w) :=
        fun w member => pieces fresh w (.operand (.operand used member)) m rfl
      simp only [matchesWithin]
      apply Answers.after (read_other used)
      apply answers_iff (admits.trans (found fresh))
      cases o with
      | both lhs rhs =>
        apply (operands lhs (by simp [Other.values])).bind
        · intro left
          exact answers_iff (and_iff_right left).symm (operands rhs (by simp [Other.values]))
        · exact fun wrong => .pure (by simp) fun _ both => wrong both.1
      | either lhs rhs =>
        apply (operands lhs (by simp [Other.values])).bind
        · exact fun left => .pure (fun _ => .inl left) (by simp)
        · intro wrong
          exact answers_iff (or_iff_right wrong).symm (operands rhs (by simp [Other.values]))
      | opposite inner =>
        apply (operands inner (by simp [Other.values])).bind
        · exact fun holds => .pure (by simp) fun _ fails => fails holds
        · exact fun fails => .pure (fun _ => fails) (by simp)
      | host journey => exact (formal journey used).elim
      | scroll scroll => exact answers_same
    | ni | veracity | numeral =>
      apply answers_iff (found (by simp [Heap.On]))
      exact answers_scalar rfl
    | imitation h => exact formal.elim
    | journey h => exact formal.elim
    | codex h => exact formal.elim

end Matching

section Meaning

theorem fits_answers (closed : m.heap.Closed) (refers : m.heap.Refers candidate)
    (matchable : m.heap.Matchable candidate v) :
    Answers env m (fits v candidate) (m.heap.Seen candidate [] v)
      (¬ m.heap.Seen candidate [] v) := by
  have chain := Heap.extent_le_capacity m.heap m.heap.Operand v
  have enough : m.heap.reserve [] v < env.depth + matchingRoom m.heap.capacity + 1 := by
    simp only [Heap.reserve, List.length_nil, Nat.sub_zero, matchingRoom]
    omega
  have stable : m.heap.Found candidate _ [] v ↔ m.heap.Seen candidate [] v :=
    Heap.found_stable closed matchable.toPattern .nil enough (Nat.lt_succ_self _)
  exact answers_iff stable (answers_search closed refers matchable .nil enough rfl)

theorem fits_iff_seen (closed : m.heap.Closed) (refers : m.heap.Refers candidate)
    (matchable : m.heap.Matchable candidate v) :
    fits v candidate env m = .ok true m ↔ m.heap.Seen candidate [] v := by
  obtain ⟨b, done, right, wrong⟩ : Answers env m (fits v candidate) _ _ :=
    fits_answers closed refers matchable
  rw [done]
  cases b with
  | true => simp [right rfl]
  | false => simp [wrong rfl]

/-- Matching ends with an answer and leaves the machine as it is. Without circles in the pattern the
answers are the one solution of the equations, so that complements obey De Morgan's laws; with
circles through books but without complements they are the least solution. -/
theorem matching_denotes (closed : m.heap.Closed) (refers : m.heap.Refers candidate)
    (env : Env) :
    let S := fun v => fits v candidate env m = .ok true m
    (∀ v, m.heap.Matchable candidate v → ∃ b, fits v candidate env m = .ok b m) ∧
    (∀ v, m.heap.Matchable candidate v → Heap.Acyclic m.heap.Piece v →
      (S v ↔ m.heap.Admits candidate S v) ∧
      ∀ T, (∀ w, m.heap.Inside v w → (T w ↔ m.heap.Admits candidate T w)) → (S v ↔ T v)) ∧
    (∀ v, m.heap.Matchable candidate v → (∀ w, m.heap.Inside v w → ¬ m.heap.Negates w) →
      (S v ↔ m.heap.Admits candidate S v) ∧
      ∀ T, (∀ w, m.heap.Inside v w → m.heap.Admits candidate T w → T w) → S v → T v) ∧
    (∀ u v w x y a b, m.heap.Matchable candidate u → Heap.Acyclic m.heap.Piece u →
      m.heap.Matchable candidate w → Heap.Acyclic m.heap.Piece w → m.heap.Helper u (.opposite v) →
      m.heap.Helper x (.opposite a) → m.heap.Helper y (.opposite b) →
      (m.heap.Helper v (.both a b) → m.heap.Helper w (.either x y) →
        fits u candidate env m = fits w candidate env m) ∧
      (m.heap.Helper v (.either a b) → m.heap.Helper w (.both x y) →
        fits u candidate env m = fits w candidate env m)) := by
  intro S
  -- What is found within the room there is, is what is found however much there were.
  have seen : ∀ v, m.heap.Matchable candidate v → (S v ↔ m.heap.Seen candidate [] v) := fun v matchable =>
    fits_iff_seen closed refers matchable
  have pieces : ∀ {v}, m.heap.Matchable candidate v →
      (m.heap.Admits candidate S v ↔ m.heap.Admits candidate (m.heap.Seen candidate []) v) :=
    fun matchable => Heap.admits_congr fun w piece =>
      seen w (matchable.inside closed (.single piece))
  have acyclic : ∀ v, m.heap.Matchable candidate v → Heap.Acyclic m.heap.Piece v →
      (S v ↔ m.heap.Admits candidate S v) := by
    intro v matchable acyclic
    rw [seen v matchable, pieces matchable]
    exact Heap.seen_acyclic closed matchable.toPattern acyclic .nil fun _ _ => Heap.not_on_nil
  have ends : ∀ v, m.heap.Matchable candidate v → ∃ b, fits v candidate env m = .ok b m := by
    intro v matchable
    obtain ⟨b, done, _⟩ : Answers env m (fits v candidate) _ _ :=
      fits_answers closed refers matchable
    exact ⟨b, done⟩
  refine ⟨ends, ?_, ?_, ?_⟩
  · intro v matchable free
    apply And.intro (acyclic v matchable free)
    intro T solves
    apply Heap.admits_unique closed matchable.toPattern free _ solves
    exact fun w inside => acyclic w (matchable.inside closed inside) (free.below inside)
  · intro v matchable positive
    constructor
    · rw [seen v matchable, pieces matchable]
      exact Heap.seen_positive closed matchable.toPattern positive
    · intro T solves holds
      exact Heap.found_least positive solves ((seen v matchable).mp holds)
  · intro u v w x y a b first freeFirst second freeSecond complement left right
    have solves : ∀ z, m.heap.Inside u z ∨ m.heap.Inside w z → (S z ↔ m.heap.Admits candidate S z) := by
      rintro z (inside | inside)
      · exact acyclic z (first.inside closed inside) (freeFirst.below inside)
      · exact acyclic z (second.inside closed inside) (freeSecond.below inside)
    have same : (S u ↔ S w) → fits u candidate env m = fits w candidate env m := by
      intro agree
      obtain ⟨p, done⟩ := ends u first
      obtain ⟨q, ended⟩ := ends w second
      simp only [S, done, ended, EStateM.Result.ok.injEq, and_true] at agree
      rw [done, ended, Bool.eq_iff_iff.mpr agree]
    constructor
    · exact fun both either => same (Heap.opposite_both solves complement left right both either)
    · exact fun either both => same (Heap.opposite_either solves complement left right either both)

/-- A book with a helper that admits what the book admits and 7, and a helper that complements. -/
def mosaic : Machine := bare [
  .book #[.other ⟨1⟩], .other (.either (.book ⟨0⟩) (.numeral 7)), .other (.opposite (.numeral 7))]

theorem mosaic_page {h : Handle} {pages : Array Value}
    (used : mosaic.heap.get? h = some (.book pages)) : h = ⟨0⟩ ∧ pages = #[.other ⟨1⟩] := by
  obtain ⟨slot⟩ := h
  rw [mosaic, bare_get] at used
  rcases slot with _ | _ | _ | slot <;> simp_all

theorem mosaic_operand {v w : Value} (operand : mosaic.heap.Operand v w) :
    (v = .other ⟨1⟩ ∧ w = .book ⟨0⟩) ∨ (v = .other ⟨1⟩ ∨ v = .other ⟨2⟩) ∧ w = .numeral 7 := by
  obtain ⟨used, member⟩ := operand
  rename_i h o
  obtain ⟨slot⟩ := h
  rw [mosaic, bare_get] at used
  rcases slot with _ | _ | _ | slot <;> simp at used <;> subst used <;> simpa [Other.values] using member

theorem mosaic_closed : mosaic.heap.Closed := bare_heap_closed (by decide)

theorem mosaic_piece {v w : Value} (piece : mosaic.heap.Piece v w) :
    w = .book ⟨0⟩ ∨ w = .other ⟨1⟩ ∨ w = .numeral 7 := by
  rcases piece with ⟨used, member⟩ | operand
  · obtain ⟨rfl, rfl⟩ := mosaic_page used
    simp_all
  · rcases mosaic_operand operand with ⟨_, rfl⟩ | ⟨_, rfl⟩ <;> simp

theorem mosaic_inside {w : Value} (inside : mosaic.heap.Inside (.book ⟨0⟩) w) :
    w = .book ⟨0⟩ ∨ w = .other ⟨1⟩ ∨ w = .numeral 7 := by
  rcases inside.cases_tail with rfl | ⟨u, _, last⟩
  · exact .inl rfl
  · exact mosaic_piece last

theorem mosaic_pattern {v : Value} (refers : mosaic.heap.Refers v) (formal : mosaic.heap.Formal v) :
    mosaic.heap.Pattern v := by
  have short : ∀ u w x, mosaic.heap.Operand u w → ¬ mosaic.heap.Operand w x := by
    intro u w x first second
    rcases mosaic_operand first with ⟨_, rfl⟩ | ⟨_, rfl⟩ <;> cases second
  constructor
  · exact refers
  · intro w inside
    rcases inside.cases_tail with rfl | ⟨u, _, last⟩
    · exact formal
    · rcases mosaic_piece last with rfl | rfl | rfl
      · trivial
      · intro journey used
        have own : mosaic.heap.get? ⟨1⟩ = _ := bare_get _ ⟨1⟩
        cases own.symm.trans used
      · trivial
  · exact fun w _ => .shallow (short w)

theorem mosaic_matchable {v : Value} {n : Int64} (refers : mosaic.heap.Refers v)
    (formal : mosaic.heap.Formal v) : mosaic.heap.Matchable (.numeral n) v where
  toPattern := mosaic_pattern refers formal
  lineal _ _ _ _ imitation := by cases imitation

theorem mosaic_acyclic : Heap.Acyclic mosaic.heap.Piece (.other ⟨2⟩) := by
  apply Heap.Acyclic.shallow
  rintro u w ⟨⟩ second
  rename_i operand
  rcases mosaic_operand operand with ⟨same, _⟩ | ⟨_, rfl⟩
  · cases same
  · cases second with
    | operand operand => cases operand

/-- Of the solutions for 8 the one is found that admits nothing. -/
theorem mosaic_matched : mosaic.heap.Matchable (.numeral 8) (.book ⟨0⟩) ∧ ∀ env,
    fits (.book ⟨0⟩) (.numeral 7) env mosaic = .ok true mosaic ∧
    fits (.book ⟨0⟩) (.numeral 8) env mosaic = .ok false mosaic ∧
    fits (.other ⟨2⟩) (.numeral 8) env mosaic = .ok true mosaic := by
  have whole : mosaic.heap.get? ⟨0⟩ = some (.book #[.other ⟨1⟩]) := bare_get _ ⟨0⟩
  have either : mosaic.heap.Helper (.other ⟨1⟩) (.either (.book ⟨0⟩) (.numeral 7)) :=
    ⟨⟨1⟩, rfl, bare_get _ ⟨1⟩⟩
  have opposite : mosaic.heap.Helper (.other ⟨2⟩) (.opposite (.numeral 7)) :=
    ⟨⟨2⟩, rfl, bare_get _ ⟨2⟩⟩
  have book : ∀ n, mosaic.heap.Matchable (.numeral n) (.book ⟨0⟩) := fun _ =>
    mosaic_matchable ((Heap.refers_book).mpr ⟨_, whole, rfl⟩) trivial
  have complement : mosaic.heap.Matchable (.numeral 8) (.other ⟨2⟩) := by
    have own : mosaic.heap.get? ⟨2⟩ = _ := bare_get _ ⟨2⟩
    apply mosaic_matchable ((Heap.refers_other).mpr ⟨_, own, rfl⟩)
    intro journey used
    cases own.symm.trans used
  have positive : ∀ w, mosaic.heap.Inside (.book ⟨0⟩) w → ¬ mosaic.heap.Negates w := by
    rintro w inside ⟨inner, k, rfl, used⟩
    rcases mosaic_inside inside with same | same | same <;> cases same
    have own : mosaic.heap.get? ⟨1⟩ = _ := bare_get _ ⟨1⟩
    cases own.symm.trans used
  apply And.intro (book 8)
  intro env
  obtain ⟨_, _, least, _⟩ := matching_denotes mosaic_closed
    (Heap.refers_numeral 7) env
  obtain ⟨ends, exact, zero, _⟩ := matching_denotes mosaic_closed
    (Heap.refers_numeral 8) env
  have page : mosaic.heap.Piece (.book ⟨0⟩) (.other ⟨1⟩) := .page whole (by simp)
  have seven : mosaic.heap.Piece (.other ⟨1⟩) (.numeral 7) := either.piece (by simp [Other.values])
  refine ⟨?_, ?_, ?_⟩
  · have inner := (least (.numeral 7) ((book 7).inside mosaic_closed (.head page (.single seven)))
      fun w inside => positive w (.head page (.head seven inside))).1.mpr rfl
    have outer := (least (.other ⟨1⟩) ((book 7).inside mosaic_closed (.single page))
      fun w inside => positive w (.head page inside)).1.mpr ((Heap.admits_helper either).mpr (.inr inner))
    exact (least _ (book 7) positive).1.mpr ⟨_, whole, _, by simp, outer⟩
  · have nothing : ¬ fits (.book ⟨0⟩) (.numeral 8) env mosaic = .ok true mosaic := by
      apply (zero _ (book 8) positive).2 fun _ => False
      intro w inside admits
      rcases mosaic_inside inside with rfl | rfl | rfl
      · obtain ⟨_, _, _, _, impossible⟩ := admits
        exact impossible
      · simpa [Heap.Combines] using (Heap.admits_helper either).mp admits
      · cases (show Value.numeral 8 = .numeral 7 from admits)
    obtain ⟨b, done⟩ := ends _ (book 8)
    simpa [done] using nothing
  · have other : ¬ fits (.numeral 7) (.numeral 8) env mosaic = .ok true mosaic := by
      intro holds
      have matchable := (book 8).inside mosaic_closed (.head page (.single seven))
      cases (show Value.numeral 8 = .numeral 7 from
        (zero _ matchable fun w inside => positive w (.head page (.head seven inside))).1.mp holds)
    exact (exact _ complement mosaic_acyclic).1.mpr ((Heap.admits_helper opposite).mpr other)

/-- A text that names the genus `Other`, something of that genus, a form that is its own parent, one
that is not, and an imitation of the first. -/
def strays : Machine := bare [.text "Other", .other (.opposite .ni),
  .form { name := "Loop", parents := [⟨2⟩] }, .form { name := "Root" },
  .imitation { form := ⟨2⟩, matter := #[] }]

theorem strays_closed : strays.heap.Closed := bare_heap_closed (by decide)

/-- The genus `Other` is not found by its name, and the search above the loop does not come to an
end. -/
theorem strays_unmatched : strays.heap.Closed ∧ strays.heap.Pattern (.text ⟨0⟩) ∧
    strays.heap.get? ⟨0⟩ = some (.text (Value.other ⟨1⟩).genus.name) ∧
    strays.heap.Pattern (.form ⟨3⟩) ∧ Heap.Acyclic strays.heap.Parent (.form ⟨3⟩) ∧
    ∀ env, fits (.text ⟨0⟩) (.other ⟨1⟩) env strays = .ok false strays ∧
      fits (.form ⟨3⟩) (.imitation ⟨4⟩) env strays = .error (.fatal .tooDeep) strays := by
  have name : strays.heap.get? ⟨0⟩ = some (.text "Other") := bare_get _ ⟨0⟩
  have root : strays.heap.get? ⟨3⟩ = some (.form { name := "Root" }) := bare_get _ ⟨3⟩
  refine ⟨strays_closed, ?_, name, ?_, ?_, fun env => ⟨rfl, rfl⟩⟩
  · apply Heap.Pattern.single ((Heap.refers_text).mpr ⟨_, name, rfl⟩) trivial
    rintro w ⟨⟩
    rename_i operand
    cases operand
  · apply Heap.Pattern.single ((Heap.refers_form).mpr ⟨_, root, rfl⟩) trivial
    rintro w ⟨⟩
    rename_i operand
    cases operand
  · apply Heap.Acyclic.shallow
    rintro u w ⟨used, member⟩
    cases root.symm.trans used
    cases member

end Meaning

end Run

end JourneyMachine
