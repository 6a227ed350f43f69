import JourneyMachine.Proofs.Containers.Snapshots
import JourneyMachine.Proofs.Texts.Spelling

namespace JourneyMachine

/-- The characters from a position counted from one, at most so many. -/
def piece (content : String) (start count : Int64) : String :=
  String.ofList ((content.toList.drop (start.toInt - 1).toNat).take count.toInt.toNat)

/-- A text and a book of its characters are there, and there is room for one object more. -/
structure Machine.Shows (m : Machine) (t b : Handle) (content : String) : Prop where
  tidy : m.heap.Tidy
  text : m.heap.get? t = some (.text content)
  book : m.heap.Spells b (content.toList.map String.singleton)
  room : m.HasRoom 1

namespace Run

variable {env : Env} {m : Machine} {t b e : Handle} {content : String} {i s c d : Int64}

/-- A computation gives a text of that content. -/
def Tells (env : Env) (m : Machine) (run : Run Value) (content : String) : Prop :=
  ∃ v m', run env m = .ok v m' ∧ m'.heap.IsText v content

theorem tells_newText (tidy : m.heap.Tidy) (room : m.HasRoom 1) (content : String) :
    Tells env m (newText content) content := by
  obtain ⟨t, m', made, added⟩ := newText_adds env tidy room content
  exact ⟨_, m', made, t, rfl, added.object⟩

theorem Tells.congr {run other : Run Value} (tells : Tells env m run content)
    (same : other env m = run env m) : Tells env m other content := by
  obtain ⟨v, m', done, text⟩ := tells
  exact ⟨v, m', same.trans done, text⟩

section Pieces

theorem piece_append (first : 1 ≤ s.toInt) (nonneg : 0 ≤ c.toInt) (more : 0 ≤ d.toInt)
    (start : s.toInt + c.toInt < 2 ^ 63) (count : c.toInt + d.toInt < 2 ^ 63) :
    piece content s c ++ piece content (s + c) d = piece content s (c + d) := by
  have moved : (s + c).toInt = s.toInt + c.toInt := by
    rw [Int64.toInt_add]
    apply Int.bmod_eq_of_le <;> omega
  have total : (c + d).toInt = c.toInt + d.toInt := by
    rw [Int64.toInt_add]
    apply Int.bmod_eq_of_le <;> omega
  have after : (s.toInt + c.toInt - 1).toNat = (s.toInt - 1).toNat + c.toInt.toNat := by omega
  have both : (c.toInt + d.toInt).toNat = c.toInt.toNat + d.toInt.toNat := by omega
  simp only [piece, moved, total, after, both, ← String.ofList_append, List.take_add,
    List.drop_drop]

/-- A piece of length one is the character that an index means, or nothing. -/
theorem piece_one (first : 1 ≤ i.toInt) :
    piece content i 1 =
      (content.toList[positionOf i content.length]?.map String.singleton).getD "" := by
  have position : (i.toInt - 1).toNat = positionOf i content.length := by
    unfold positionOf
    rw [if_pos (by omega)]
  have one : (1 : Int64).toInt.toNat = 1 := rfl
  rw [piece, position, one]
  cases found : content.toList[positionOf i content.length]? with
  | none =>
    rw [List.drop_eq_nil_of_le (List.getElem?_eq_none_iff.mp found)]
    rfl
  | some character =>
    obtain ⟨inside, same⟩ := List.getElem?_eq_some_iff.mp found
    rw [List.drop_eq_getElem_cons inside, same]
    rfl

theorem intercalate_singletons (content : String) :
    "".intercalate (content.toList.map String.singleton) = content := by
  have joined : ∀ characters : List Char,
      ([] : List Char).intercalate (characters.map fun c => [c]) = characters := by
    intro characters
    induction characters with
    | nil => rfl
    | cons c rest ih =>
      cases rest with
      | nil => rfl
      | cons next rest =>
        have tail : ([] : List Char).intercalate ([next] :: rest.map fun c => [c]) =
          next :: rest := ih
        rw [List.map_cons, List.map_cons, List.intercalate_cons_cons, tail]
        rfl
  have singles : String.toList ∘ String.singleton = fun c => [c] := by
    funext c
    exact String.toList_singleton c
  apply String.toList_inj.mp
  rw [String.toList_intercalate, List.map_map, singles]
  exact joined content.toList

end Pieces

section Operations

theorem toText_text (used : m.heap.get? t = some (.text content)) :
    toText (.text t) env m = .ok content m := by
  have own : ∀ room path, textWithin room path (.text t) = text t := by
    intro room path
    cases room <;> rfl
  have start : toText (.text t) env m = textWithin m.heap.capacity [] (.text t) env m := rfl
  rw [start, own, read_text used]

theorem substr_text (used : m.heap.get? t = some (.text content)) (first : 1 ≤ s.toInt) :
    substr (.text t) (.numeral s) (.numeral c) env m = newText (piece content s c) env m := by
  have other : s ≠ 0 := by
    rintro rfl
    exact absurd first (by decide)
  have start : toNumeral (.numeral s) env m = .ok s m := rfl
  have count : toNumeral (.numeral c) env m = .ok c m := rfl
  apply (bind_ok (toText_text used)).trans
  apply (bind_ok start).trans
  rw [if_neg other]
  apply (bind_ok count).trans
  rw [if_neg (by omega)]
  rfl

/-- An index that does not throw is that of a character, or past the last one. -/
theorem index_text (used : m.heap.get? t = some (.text content))
    (inside : ¬ OffBook i content.length) :
    index (.text t) (.numeral i) env m =
      match content.toList[positionOf i content.length]? with
      | some character => newText (String.singleton character) env m
      | none => .ok .ni m := by
  unfold OffBook at inside
  -- Such an index is neither zero nor before the first character, where it would throw.
  have other : i ≠ 0 := fun zero => inside (.inl zero)
  have key : toNumeral (.numeral i) env m = .ok i m := rfl
  have enough : ¬ (if 0 < i.toInt then i.toInt - 1 else i.toInt + content.toList.length) < 0 := by
    rw [String.length_toList]
    split <;> omega
  apply (bind_ok key).trans
  rw [if_neg other]
  apply (bind_ok (read_text used)).trans
  rw [if_neg enough, String.length_toList, Int.add_comm i.toInt, ← positionOf]
  cases content.toList[positionOf i content.length]? <;> rfl

/-- The same index into the book of the characters. -/
theorem index_spelled (env : Env)
    (spells : m.heap.Spells b (content.toList.map String.singleton))
    (inside : ¬ OffBook i content.length) :
    match content.toList[positionOf i content.length]? with
    | some character => Tells env m (index (.book b) (.numeral i)) (String.singleton character)
    | none => index (.book b) (.numeral i) env m = .ok .ni m := by
  obtain ⟨pages, used, written⟩ := spells
  have length : pages.toList.length = content.toList.length := by
    rw [written.length_eq, List.length_map]
  have size : content.length = pages.size := by
    rw [← String.length_toList, ← length, Array.length_toList]
  rw [size] at inside ⊢
  have read : index (.book b) (.numeral i) env m =
      .ok (pages.toList[positionOf i pages.size]?.getD .ni) m := by
    rw [index_book used, Array.getElem?_toList, ← Array.getD_eq_getD_getElem?]
    exact (bind_ok (pagePosition_ok inside)).trans (bind_ok (read_book used))
  rw [read]
  cases found : content.toList[positionOf i pages.size]? with
  | none =>
    have past := length ▸ List.getElem?_eq_none_iff.mp found
    rw [List.getElem?_eq_none_iff.mpr past]
    rfl
  | some character =>
    obtain ⟨below, same⟩ := List.getElem?_eq_some_iff.mp found
    have within : positionOf i pages.size < pages.toList.length := length ▸ below
    have told := (List.forall₂_iff_get.mp written).2 _ within (by rwa [List.length_map])
    simp only [List.get_eq_getElem, List.getElem_map, same] at told
    refine ⟨_, m, read, ?_⟩
    rwa [List.getElem?_eq_getElem within]

theorem mapM_toText {values : List Value} {contents : List String}
    (written : List.Forall₂ m.heap.IsText values contents) :
    values.mapM toText env m = .ok contents m := by
  induction written with
  | nil => rfl
  | cons told _ ih =>
    obtain ⟨t, rfl, used⟩ := told
    rw [List.mapM_cons]
    exact (bind_ok (toText_text used)).trans (bind_ok ih)

/-- The pages of the book are put together with nothing between them. -/
theorem mul_spelled (spells : m.heap.Spells b (content.toList.map String.singleton))
    (empty : m.heap.get? e = some (.text "")) :
    mul (.book b) (.text e) env m = newText content env m := by
  obtain ⟨pages, used, written⟩ := spells
  have joined : mul (.book b) (.text e) = bookJoin (.book b) (.text e) := rfl
  have separator : text e env m = .ok "" m := read_text empty
  have parts : withPages (.book b) .ni (fun pages => pages.mapM toText) env m =
      .ok (content.toList.map String.singleton) m := by
    rw [withPages_book used]
    generalize pins : Value.book b :: Value.ni :: pages.toList = values
    have read : (pages.toList.mapM toText : Run (List String)) env (m.pin values) = .ok _ _ :=
      mapM_toText (m := m.pin values) written
    rw [read]
    exact congrArg (EStateM.Result.ok _) (m.unpin_pin values)
  have whole := intercalate_singletons content
  rw [joined]
  apply (bind_ok separator).trans
  apply (bind_ok parts).trans
  rw [whole]

end Operations

section Agreement

variable (env : Env) (shown : m.Shows t b content)

include shown

theorem shown_index (range : 1 ≤ i.toInt ∨ -(content.length : Int) ≤ i.toInt ∧ i.toInt ≤ -1) :
    match content.toList[positionOf i content.length]? with
    | some character =>
      Tells env m (index (.text t) (.numeral i)) (String.singleton character) ∧
      Tells env m (index (.book b) (.numeral i)) (String.singleton character)
    | none => index (.text t) (.numeral i) env m = .ok .ni m ∧
      index (.book b) (.numeral i) env m = .ok .ni m := by
  have inside : ¬ OffBook i content.length := by
    rintro (rfl | off)
    · rw [Int64.toInt_zero] at range
      omega
    · omega
  have text : index (.text t) (.numeral i) env m = _ := index_text shown.text inside
  have book := index_spelled env shown.book inside
  cases found : content.toList[positionOf i content.length]? with
  | some character =>
    rw [found] at text book
    exact ⟨(tells_newText shown.tidy shown.room _).congr text, book⟩
  | none =>
    rw [found] at text book
    exact ⟨text, book⟩

theorem shown_piece (s c : Int64) (first : 1 ≤ s.toInt) :
    Tells env m (substr (.text t) (.numeral s) (.numeral c)) (piece content s c) :=
  (tells_newText shown.tidy shown.room _).congr (substr_text shown.text first)

/-- From the front, a piece of length one is the character that the index gives. -/
theorem shown_front (first : 1 ≤ i.toInt) :
    (i.toInt ≤ content.length → ∃ character,
      Tells env m (index (.text t) (.numeral i)) (String.singleton character) ∧
      Tells env m (substr (.text t) (.numeral i) (.numeral 1)) (String.singleton character)) ∧
    (content.length < i.toInt → index (.text t) (.numeral i) env m = .ok .ni m ∧
      Tells env m (substr (.text t) (.numeral i) (.numeral 1)) "") := by
  have position : positionOf i content.length = i.toInt.toNat - 1 := by
    unfold positionOf
    split <;> omega
  have indexed := shown_index env shown (.inl first)
  have one := shown_piece env shown i 1 first
  rw [piece_one first] at one
  cases found : content.toList[positionOf i content.length]? with
  | some character =>
    have within := (List.getElem?_eq_some_iff.mp found).1
    rw [String.length_toList] at within
    rw [found] at indexed one
    exact ⟨fun _ => ⟨character, indexed.1, one⟩, fun beyond => by omega⟩
  | none =>
    have beyond := List.getElem?_eq_none_iff.mp found
    rw [String.length_toList] at beyond
    rw [found] at indexed one
    exact ⟨fun within => by omega, fun _ => ⟨indexed.1, one⟩⟩

theorem shown_cut (first : 1 ≤ s.toInt) (nonneg : 0 ≤ c.toInt) (more : 0 ≤ d.toInt)
    (start : s.toInt + c.toInt < 2 ^ 63) (count : c.toInt + d.toInt < 2 ^ 63) :
    ∃ before after,
      Tells env m (substr (.text t) (.numeral s) (.numeral c)) before ∧
      Tells env m (substr (.text t) (.numeral (s + c)) (.numeral d)) after ∧
      Tells env m (substr (.text t) (.numeral s) (.numeral (c + d))) (before ++ after) := by
  have moved : 1 ≤ (s + c).toInt := by
    rw [Int64.toInt_add, Int.bmod_eq_of_le] <;> omega
  have whole := shown_piece env shown s (c + d) first
  rw [← piece_append first nonneg more start count] at whole
  exact ⟨_, _, shown_piece env shown s c first, shown_piece env shown (s + c) d moved, whole⟩

end Agreement

/-- The book of a rooted text shows its characters, and wherever both are still there, every way to
get at a character or a piece comes to the same: joining the pages gives the text, an index gives the
same character of the text and of the book or ni for both, from the front a piece of length one is
that character or empty, and a piece is what any two pieces it is cut into make up. -/
theorem text_paths_agree (tidy : m.heap.Tidy) (used : m.heap.get? t = some (.text content))
    (rooted : m.heap.Reachable m.roots t) (room : m.HasRoom (content.length + 2)) (env : Env) :
    (∃ b m', toBook (.text t) env m = .ok (.book b) m' ∧ m'.Shows t b content ∧
      m.heap.Retains m.roots m'.heap ∧ m' = { m with heap := m'.heap }) ∧
    ∀ m₁ b, m₁.Shows t b content →
      (∀ e, m₁.heap.get? e = some (.text "") →
        Tells env m₁ (mul (.book b) (.text e)) content) ∧
      (∀ i : Int64, 1 ≤ i.toInt ∨ -(content.length : Int) ≤ i.toInt ∧ i.toInt ≤ -1 →
        match content.toList[positionOf i content.length]? with
        | some character =>
          Tells env m₁ (index (.text t) (.numeral i)) (String.singleton character) ∧
          Tells env m₁ (index (.book b) (.numeral i)) (String.singleton character)
        | none => index (.text t) (.numeral i) env m₁ = .ok .ni m₁ ∧
          index (.book b) (.numeral i) env m₁ = .ok .ni m₁) ∧
      (∀ i : Int64, 1 ≤ i.toInt →
        (i.toInt ≤ content.length → ∃ character,
          Tells env m₁ (index (.text t) (.numeral i)) (String.singleton character) ∧
          Tells env m₁ (substr (.text t) (.numeral i) (.numeral 1)) (String.singleton character)) ∧
        (content.length < i.toInt → index (.text t) (.numeral i) env m₁ = .ok .ni m₁ ∧
          Tells env m₁ (substr (.text t) (.numeral i) (.numeral 1)) "")) ∧
      ∀ s c d : Int64, 1 ≤ s.toInt → 0 ≤ c.toInt → 0 ≤ d.toInt → s.toInt + c.toInt < 2 ^ 63 →
        c.toInt + d.toInt < 2 ^ 63 → ∃ first second,
          Tells env m₁ (substr (.text t) (.numeral s) (.numeral c)) first ∧
          Tells env m₁ (substr (.text t) (.numeral (s + c)) (.numeral d)) second ∧
          Tells env m₁ (substr (.text t) (.numeral s) (.numeral (c + d))) (first ++ second) := by
  constructor
  · obtain ⟨b, m', made, spells, retains, outside, left⟩ :=
      toBook_spells (n := 1) tidy used room env
    exact ⟨b, m', made, ⟨retains.tidy, (retains.kept t rooted).trans used, spells, left⟩, retains,
      outside⟩
  · exact fun m₁ b shown => ⟨fun e empty =>
      (tells_newText shown.tidy shown.room _).congr (mul_spelled shown.book empty),
      fun _ => shown_index env shown, fun _ => shown_front env shown,
      fun _ _ _ => shown_cut env shown⟩

/-- A machine with a text of two characters and an empty one, both pinned. Its heap is full of texts
that nothing refers to. -/
def ribbon : Machine :=
  { bare [.text "aé", .text "", .text "lost", .text "lost", .text "lost", .text "lost"] with
    pinned := [.text ⟨0⟩, .text ⟨1⟩] }

theorem ribbon_get (h : Handle) : ribbon.heap.get? h =
    [.text "aé", .text "", .text "lost", .text "lost", .text "lost", .text "lost"][h.slot]? :=
  bare_get _ h

theorem ribbon_tidy : ribbon.heap.Tidy := bare_tidy _

theorem ribbon_room : ribbon.HasRoom 4 := by
  have kept : {h | ribbon.heap.Reachable ribbon.roots h} ⊆ {⟨0⟩, ⟨1⟩} := by
    intro h reachable
    induction reachable with
    | @root h o member used =>
      have slots : ∀ k ∈ ribbon.roots, k = ⟨0⟩ ∨ k = ⟨1⟩ ∨ k = ⟨6⟩ := by decide
      rcases slots h member with rfl | rfl | rfl
      · exact .inl rfl
      · exact .inr rfl
      · cases (ribbon_get ⟨6⟩).symm.trans used
    | child _ parent member _ ih =>
      rcases ih with rfl | rfl
      · cases (ribbon_get ⟨0⟩).symm.trans parent
        cases member
      · cases (ribbon_get ⟨1⟩).symm.trans parent
        cases member
  have count : ribbon.reachableCount ≤ 2 :=
    (Set.ncard_le_ncard kept (Set.toFinite _)).trans (Set.ncard_insert_le _ _ |>.trans (by simp))
  have capacity : ribbon.heap.capacity = 6 := rfl
  unfold Machine.HasRoom
  omega

/-- Both are still there when the book was made, for which the heap had to be collected. Its pages
make up the text, and the last character is that of the book and of the piece. -/
theorem ribbon_shown : ribbon.HasRoom (("aé" : String).length + 2) ∧ ∀ env, ∃ b m',
    toBook (.text ⟨0⟩) env ribbon = .ok (.book b) m' ∧ m'.Shows ⟨0⟩ b "aé" ∧
    Tells env m' (mul (.book b) (.text ⟨1⟩)) "aé" ∧
    Tells env m' (index (.text ⟨0⟩) (.numeral (-1))) "é" ∧
    Tells env m' (index (.book b) (.numeral (-1))) "é" ∧
    index (.book b) (.numeral 3) env m' = .ok .ni m' ∧
    (∃ character, Tells env m' (substr (.text ⟨0⟩) (.numeral 2) (.numeral 1))
      (String.singleton character)) ∧
    ∃ first second, Tells env m' (substr (.text ⟨0⟩) (.numeral 1) (.numeral 1)) first ∧
      Tells env m' (substr (.text ⟨0⟩) (.numeral 1) (.numeral 8)) (first ++ second) := by
  have used : ribbon.heap.get? ⟨0⟩ = some (.text "aé") := ribbon_get ⟨0⟩
  have empty : ribbon.heap.get? ⟨1⟩ = some (.text "") := ribbon_get ⟨1⟩
  have rooted : ribbon.heap.Reachable ribbon.roots ⟨0⟩ := .root (by decide) used
  have kept : ribbon.heap.Reachable ribbon.roots ⟨1⟩ := .root (by decide) empty
  refine ⟨ribbon_room, fun env => ?_⟩
  obtain ⟨⟨b, m', made, shown, retains, _⟩, paths⟩ :=
    text_paths_agree ribbon_tidy used rooted ribbon_room env
  obtain ⟨joined, indexed, fronts, cut⟩ := paths m' b shown
  obtain ⟨character, _, single⟩ := (fronts 2 (by decide)).1 (by decide)
  obtain ⟨first, second, before, _, whole⟩ := cut 1 1 7 (by decide) (by decide) (by decide)
    (by decide) (by decide)
  have last := indexed (-1) (by decide)
  have past := indexed 3 (by decide)
  exact ⟨b, m', made, shown, joined ⟨1⟩ ((retains.kept ⟨1⟩ kept).trans empty), last.1, last.2,
    past.2, ⟨character, single⟩, first, second, before, whole⟩

end Run

end JourneyMachine
