import JourneyMachine.Proofs.Closure.Contracts

namespace JourneyMachine

open Machine (Within Active)

namespace Machine

variable {strict : Prop} {m : Machine}

theorem Closed.kept (closed : m.Closed) {heap : Heap} (kept : Heap.Kept m.links m.heap heap) :
    ({ m with heap } : Machine).Closed where
  tidy := kept.tidy
  heap := kept.closed
  links v member := kept.refers (closed.links v member) member
  patterns f member := by
    obtain ⟨j, used, pattern⟩ := closed.patterns f member
    have held : .journey f.journey ∈ m.held :=
      List.mem_append_right _ (List.mem_flatMap.mpr ⟨f, member, List.mem_cons_self ..⟩)
    have reachable := (closed.held held).reachable (held_sub_links held) rfl
    exact ⟨j, (kept.kept _ reachable).trans used, pattern⟩

theorem Within.kept (closed : m.Closed) {heap : Heap} (kept : Heap.Kept m.links m.heap heap)
    (made : ∀ h o, heap.get? h = some o →
      m.heap.get? h = some o ∨ (o.genus ≠ .form ∧ o.genus ≠ .journey)) :
    Within strict m { m with heap } where
  closed := closed.kept kept
  fixed := rfl
  frames := rfl
  pinned := rfl
  evolves := by
    refine .of_kept closed.heap (fun v member => closed.held member) kept.capacity
      (fun h reachable => kept.kept h (reachable.mono ?_)) made
    intro k member
    obtain ⟨v, held, found⟩ := List.mem_filterMap.mp member
    exact List.mem_filterMap.mpr ⟨v, held_sub_links held, found⟩
  appends := by
    apply Exists.intro []
    constructor
    · rfl
    · intro h entries count member _ used
      have reachable := (closed.held member).reachable (held_sub_links member) rfl
      exact ⟨entries, (kept.kept h reachable).trans used, List.take_prefix ..⟩

theorem Closed.exception (closed : m.Closed) {handlers : HandlerStack}
    (refers : m.heap.Refers handlers.exception) : ({ m with handlers } : Machine).Closed := by
  refine closed.of_links rfl (fun w member => ?_) fun _ => .inl
  simp only [Machine.links, List.mem_append, List.mem_singleton] at member ⊢
  rcases member with ((rest | rfl) | rest) | rest
  · tauto
  · exact .inr refers
  all_goals tauto

theorem Within.exception (closed : m.Closed) {handlers : HandlerStack}
    (refers : m.heap.Refers handlers.exception) : Within strict m { m with handlers } :=
  ⟨closed.exception refers, rfl, rfl, rfl, .refl, .same rfl rfl⟩

/-- What is not a root and not in the heap makes no difference. -/
theorem Within.same {m' : Machine} (closed : m.Closed) (heap : m'.heap = m.heap)
    (links : m'.links = m.links) (fixed : m'.fixed = m.fixed) (frames : m'.frames = m.frames)
    (pinned : m'.pinned = m.pinned) (removals : m'.removals = m.removals) :
    Within strict m m' where
  closed := closed.of_links heap (fun v member => .inl (links ▸ member)) fun f member =>
    .inl (frames ▸ member)
  fixed := fixed
  frames := frames
  pinned := pinned
  evolves := by rw [heap]; exact .refl
  appends := .same heap removals

/-- An allocation from the handles that a machine holds. -/
theorem Precedes.allocate (closed : m.Closed) {object : Object} {result : Except Object Handle}
    {heap : Heap} (suits : m.heap.Shaped m.builtins → m.heap.Suits object)
    (same : m.heap.allocate object (m.links.filterMap Value.handle?) = (result, heap)) :
    m.Precedes { m with heap } := by
  intro shaped
  have root : ∀ h, .form h ∈ m.links → h ∈ m.links.filterMap Value.handle? := fun h member =>
    List.mem_filterMap.mpr ⟨_, member, rfl⟩
  have done := shaped.allocate closed.tidy (suits shaped)
    (root m.builtins.exception (by simp [Machine.links]))
    (root m.builtins.ioError (by simp [Machine.links]))
  rw [same] at done
  exact done

/-- An object was placed, and what the machine held was left alone. -/
structure Placed (m : Machine) (object : Object) (h : Handle) (m' : Machine) : Prop where
  object : m'.heap.get? h = some object
  kept : ∀ k, m.heap.Reachable (m.links.filterMap Value.handle?) k →
    m'.heap.get? k = m.heap.get? k ∧ k ≠ h
  builtins : m'.builtins = m.builtins

theorem Placed.holds {object : Object} {h : Handle} {m' : Machine} (placed : Placed m object h m') :
    m'.heap.Holds object.genus h :=
  ⟨object, placed.object, rfl⟩

theorem Placed.refers {object : Object} {h : Handle} {m' : Machine} (placed : Placed m object h m')
    {v : Value} (refers : m.heap.Refers v) (member : v ∈ m.links) : m'.heap.Refers v :=
  refers.of_get? fun k found => (placed.kept k (refers.reachable member found)).1

theorem Placed.held {object : Object} {h k : Handle} {m' : Machine} (placed : Placed m object h m')
    (closed : m.Closed) {v : Value} (member : v ∈ m.held) (found : v.handle? = some k) :
    m'.heap.get? k = m.heap.get? k ∧ k ≠ h :=
  placed.kept k ((closed.held member).reachable (held_sub_links member) found)

structure Edited (m : Machine) (h : Handle) (object : Object) (m' : Machine) : Prop where
  object : m'.heap.get? h = some object
  others : ∀ k, k ≠ h → m'.heap.get? k = m.heap.get? k
  refers : ∀ v, m.heap.Refers v → m'.heap.Refers v

theorem Closed.modify (closed : m.Closed) {h : Handle} {o : Object} {f : Object → Object}
    (used : m.heap.get? h = some o) (alike : Object.Alike o (f o))
    (holds : ∀ v ∈ (f o).links, m.heap.Refers v) :
    ({ m with heap := m.heap.modify h f } : Machine).Closed := by
  have genus : ∀ p, m.heap.get? h = some p → (f p).genus = p.genus := by
    intro p there
    cases Option.some.inj (used.symm.trans there)
    exact alike.genus
  refine ⟨closed.tidy.modify h f, closed.heap.modify genus ?_, fun v member => ?_,
    fun frame member => ?_⟩
  · intro p there
    cases Option.some.inj (used.symm.trans there)
    exact holds
  · exact (closed.links v member).modify genus
  · obtain ⟨j, there, pattern⟩ := closed.patterns frame member
    refine ⟨j, ?_, pattern⟩
    change (m.heap.modify h f).get? frame.journey = _
    rw [Heap.get?_modify]
    split
    · rename_i same
      rw [same, used] at there
      cases Option.some.inj there
      rw [used, Option.map_some]
      generalize f (.journey j) = after at alike
      cases alike
      rfl
    · exact there

theorem Appends.modify {h : Handle} {o : Object} {f : Object → Object}
    (used : m.heap.get? h = some o)
    (keys : ∀ entries, o = .codex entries →
      ∃ after, f o = .codex after ∧ entries.map (·.1) <+: after.map (·.1)) :
    Appends m { m with heap := m.heap.modify h f } := by
  apply Exists.intro []
  constructor
  · rfl
  · intro k entries count _ _ there
    change ∃ after, (m.heap.modify h f).get? k = some (.codex after) ∧ _
    rw [Heap.get?_modify]
    split
    · rename_i same
      rw [same, used] at there
      obtain ⟨after, changed, longer⟩ := keys entries (Option.some.inj there)
      rw [used, Option.map_some, changed]
      exact ⟨after, rfl, (List.take_prefix ..).trans longer⟩
    · exact ⟨entries, there, List.take_prefix ..⟩

theorem Within.modify (closed : m.Closed) {h : Handle} {o : Object} {f : Object → Object}
    (used : m.heap.get? h = some o) (alike : Object.Alike o (f o))
    (holds : ∀ v ∈ (f o).links, m.heap.Refers v)
    (guards : ∀ form after, o = .form form → f o = .form after →
      ∀ g ∈ form.guards, g.handle? ≠ none → g ∈ after.guards)
    (keys : ∀ entries, o = .codex entries →
      ∃ after, f o = .codex after ∧ entries.map (·.1) <+: after.map (·.1)) :
    Within strict m { m with heap := m.heap.modify h f } where
  closed := closed.modify used alike holds
  fixed := rfl
  frames := rfl
  pinned := rfl
  evolves := by
    refine .modify (fun p there => ?_) fun _ _ form after there changed => ?_
    · cases Option.some.inj (used.symm.trans there)
      exact alike
    · cases Option.some.inj (used.symm.trans there)
      exact guards form after rfl changed
  appends := .modify used keys

/-- An entry is taken out of a codex. -/
theorem Within.removal (closed : m.Closed) {h : Handle} {entries : List (Value × Value)}
    {position : Nat} (used : m.heap.get? h = some (.codex entries))
    (holds : ∀ v ∈ (Object.codex (entries.eraseIdx position)).links, m.heap.Refers v) :
    Within strict m { m with
      heap := m.heap.modify h fun
        | .codex entries => .codex (entries.eraseIdx position)
        | object => object
      removals := (h, position) :: m.removals } := by
  have only : ∀ p, m.heap.get? h = some p → p = .codex entries := fun p there =>
    Option.some.inj (there.symm.trans used)
  have alike : Object.Alike (.codex entries) (.codex (entries.eraseIdx position)) := .codex
  have still := closed.modify (f := fun
    | .codex entries => .codex (entries.eraseIdx position)
    | object => object) used alike holds
  constructor
  case closed => exact ⟨still.tidy, still.heap, still.links, still.patterns⟩
  case fixed | frames | pinned => rfl
  case evolves =>
    apply Heap.Evolves.modify
    · intro p there
      rw [only p there]
      exact alike
    · intro _ _ form after there
      cases only _ there
  case appends =>
    apply Exists.intro [(h, position)]
    constructor
    · rfl
    · intro k before count _ spared there
      change ∃ after, (m.heap.modify h _).get? k = some (.codex after) ∧ _
      rw [Heap.get?_modify]
      split
      · rename_i same
        subst same
        cases only _ there
        rw [used]
        refine ⟨_, rfl, ?_⟩
        -- Entries that a look-up has counted on stand before the one taken out.
        have below : count ≤ position := spared position (List.mem_singleton_self _)
        rw [← List.map_take, ← List.take_eraseIdx_eq_take_of_le entries count position below]
        exact (List.take_prefix ..).map _
      · exact ⟨before, there, List.take_prefix ..⟩

theorem edited {h : Handle} {o : Object} {f : Object → Object} (used : m.heap.get? h = some o)
    (alike : Object.Alike o (f o)) :
    Edited m h (f o) { m with heap := m.heap.modify h f } where
  object := by
    change (m.heap.modify h f).get? h = _
    rw [Heap.get?_modify, if_pos rfl, used, Option.map_some]
  others k other := by
    change (m.heap.modify h f).get? k = _
    rw [Heap.get?_modify, if_neg other]
  refers v refers := refers.modify fun p there => by
    cases Option.some.inj (used.symm.trans there)
    exact alike.genus

end Machine

namespace Heap

variable {heap : Heap} {h : Handle}

theorem read_ok {α : Type} {expected : Genus} {part? : Object → Option α} {a : α}
    (same : heap.read expected part? h = .ok a) : ∃ o, heap.get? h = some o ∧ part? o = some a := by
  unfold read at same
  split at same
  · contradiction
  · rename_i o used
    split at same
    · rename_i part found
      cases same
      exact ⟨o, used, found⟩
    · contradiction

theorem read_some {α : Type} {expected : Genus} {part? : Object → Option α} {o : Object} {a : α}
    (used : heap.get? h = some o) (part : part? o = some a) :
    heap.read expected part? h = .ok a := by
  simp only [read, used, part]

theorem read_harmless {α : Type} {expected : Genus} {part? : Object → Option α}
    (holds : heap.Holds expected h) (slot : Nat) :
    heap.read expected part? h ≠ .error (.dangling slot) := by
  obtain ⟨o, used, _⟩ := holds
  unfold read
  rw [used]
  dsimp only
  split <;> simp

theorem text_ok {content : String} (same : heap.text h = .ok content) :
    heap.get? h = some (.text content) := by
  obtain ⟨o, used, part⟩ := read_ok same
  cases o <;> simp_all [Object.text?]

theorem book_ok {pages : Array Value} (same : heap.book h = .ok pages) :
    heap.get? h = some (.book pages) := by
  obtain ⟨o, used, part⟩ := read_ok same
  cases o <;> simp_all [Object.book?]

theorem codex_ok {entries : List (Value × Value)} (same : heap.codex h = .ok entries) :
    heap.get? h = some (.codex entries) := by
  obtain ⟨o, used, part⟩ := read_ok same
  cases o <;> simp_all [Object.codex?]

theorem form_ok {f : Form} (same : heap.form h = .ok f) : heap.get? h = some (.form f) := by
  obtain ⟨o, used, part⟩ := read_ok same
  cases o <;> simp_all [Object.form?]

theorem imitation_ok {i : Imitation} (same : heap.imitation h = .ok i) :
    heap.get? h = some (.imitation i) := by
  obtain ⟨o, used, part⟩ := read_ok same
  cases o <;> simp_all [Object.imitation?]

theorem journey_ok {j : Journey} (same : heap.journey h = .ok j) :
    heap.get? h = some (.journey j) := by
  obtain ⟨o, used, part⟩ := read_ok same
  cases o <;> simp_all [Object.journey?]

theorem other_ok {o : Other} (same : heap.other h = .ok o) : heap.get? h = some (.other o) := by
  obtain ⟨object, used, part⟩ := read_ok same
  cases object <;> simp_all [Object.other?]

end Heap

namespace Run

variable {strict : Prop} {R : Region strict} {env : Env} {m : Machine}

section Reads

variable {h : Handle}

theorem read_text {content : String} (used : m.heap.get? h = some (.text content)) :
    text h env m = .ok content m :=
  (onHeap_eq_ok).mpr ⟨Heap.read_some used rfl, rfl⟩

theorem read_book {pages : Array Value} (used : m.heap.get? h = some (.book pages)) :
    book h env m = .ok pages m :=
  (onHeap_eq_ok).mpr ⟨Heap.read_some used rfl, rfl⟩

theorem read_codex {entries : List (Value × Value)}
    (used : m.heap.get? h = some (.codex entries)) : codex h env m = .ok entries m :=
  (onHeap_eq_ok).mpr ⟨Heap.read_some used rfl, rfl⟩

theorem read_form {f : Form} (used : m.heap.get? h = some (.form f)) : form h env m = .ok f m :=
  (onHeap_eq_ok).mpr ⟨Heap.read_some used rfl, rfl⟩

theorem read_imitation {i : Imitation} (used : m.heap.get? h = some (.imitation i)) :
    imitation h env m = .ok i m :=
  (onHeap_eq_ok).mpr ⟨Heap.read_some used rfl, rfl⟩

theorem read_journey {j : Journey} (used : m.heap.get? h = some (.journey j)) :
    journey h env m = .ok j m :=
  (onHeap_eq_ok).mpr ⟨Heap.read_some used rfl, rfl⟩

theorem read_other {o : Other} (used : m.heap.get? h = some (.other o)) : other h env m = .ok o m :=
  (onHeap_eq_ok).mpr ⟨Heap.read_some used rfl, rfl⟩

theorem meets_read {α : Type} {expected : Genus} {part? : Object → Option α} {object : α → Object}
    (read : ∀ a, m.heap.read expected part? h = .ok a → m.heap.get? h = some (object a))
    (holds : strict → m.heap.Holds expected h) :
    Meets R env (onHeap (·.read expected part? h)) m
      fun a m' => m' = m ∧ m.heap.get? h = some (object a) :=
  .onHeap (fun assumed => Heap.read_harmless (holds assumed)) fun a same _ => ⟨rfl, read a same⟩

theorem meets_text (holds : strict → m.heap.Holds .text h) :
    Meets R env (text h) m fun content m' => m' = m ∧ m.heap.get? h = some (.text content) :=
  meets_read (fun _ => Heap.text_ok) holds

theorem meets_book (holds : strict → m.heap.Holds .book h) :
    Meets R env (book h) m fun pages m' => m' = m ∧ m.heap.get? h = some (.book pages) :=
  meets_read (fun _ => Heap.book_ok) holds

theorem meets_codex (holds : strict → m.heap.Holds .codex h) :
    Meets R env (codex h) m fun entries m' => m' = m ∧ m.heap.get? h = some (.codex entries) :=
  meets_read (fun _ => Heap.codex_ok) holds

theorem meets_form (holds : strict → m.heap.Holds .form h) :
    Meets R env (form h) m fun f m' => m' = m ∧ m.heap.get? h = some (.form f) :=
  meets_read (fun _ => Heap.form_ok) holds

theorem meets_imitation (holds : strict → m.heap.Holds .imitation h) :
    Meets R env (imitation h) m fun i m' => m' = m ∧ m.heap.get? h = some (.imitation i) :=
  meets_read (fun _ => Heap.imitation_ok) holds

theorem meets_journey (holds : strict → m.heap.Holds .journey h) :
    Meets R env (journey h) m fun j m' => m' = m ∧ m.heap.get? h = some (.journey j) :=
  meets_read (fun _ => Heap.journey_ok) holds

theorem meets_other (holds : strict → m.heap.Holds .other h) :
    Meets R env (other h) m fun o m' => m' = m ∧ m.heap.get? h = some (.other o) :=
  meets_read (fun _ => Heap.other_ok) holds

end Reads

section Allocation

variable {o : Object}

theorem allocate_eq (object : Object) (env : Env) (m : Machine) :
    allocate object env m =
      match m.heap.allocate object (m.links.filterMap Value.handle?) with
      | (.ok h, heap) => .ok h { m with heap }
      | (.error _, heap) =>
        .error .thrown
          { m with heap, handlers := m.handlers.throw (.imitation m.builtins.heapExhausted) } := by
  rw [← m.roots_eq]
  rfl

/-- An allocation of any object, where the region admits the heap that it leaves. -/
theorem meets_allocation (holds : R.holds m → ∀ v ∈ o.links, m.heap.Refers v)
    (suits : R.shapes → R.holds m → m.heap.Shaped m.builtins → m.heap.Suits o)
    (stays : ∀ heap, Heap.Kept m.links m.heap heap → (∀ h p, heap.get? h = some p →
      m.heap.get? h = some p ∨ p = o) → R.holds m → R.holds { m with heap }) :
    Meets R env (allocate o) m fun h m' => m.Placed o h m' := by
  refine .intro fun region => ?_
  have closed := R.closed region
  cases same : m.heap.allocate o (m.links.filterMap Value.handle?) with
  | mk result heap =>
    obtain ⟨kept, placed, made⟩ :=
      Heap.allocate_keeps closed.tidy closed.heap closed.links (holds region) same
    have still : R.holds { m with heap } :=
      stays heap kept (fun h p used => (made h p used).imp_right And.right) region
    have precedes : R.shapes → m.Precedes { m with heap } := fun kept =>
      .allocate closed (suits kept region) same
    -- Allocation does not look at the budget.
    have there : ∀ n, (m.withBudget n).heap.allocate o
        ((m.withBudget n).links.filterMap Value.handle?) = (result, heap) := fun _ => same
    cases result with
    | ok h =>
      have done : ∀ n, allocate o env (m.withBudget n) = .ok h ({ m with heap }.withBudget n) := by
        intro n
        rw [allocate_eq, there]
        rfl
      refine .instant (done m.budget) done (fun _ => ⟨still, ?_⟩) precedes
      obtain ⟨object, fresh⟩ := placed h rfl
      exact ⟨object, fun k reachable => ⟨kept.kept k reachable, fresh k reachable⟩, rfl⟩
    | error rejected =>
      have exhausted : heap.Refers (.imitation m.builtins.heapExhausted) :=
        kept.refers (closed.links _ (by simp [Machine.links])) (by simp [Machine.links])
      have full : ∀ n, allocate o env (m.withBudget n) = .error .thrown
          ({ m with
              heap, handlers := m.handlers.throw (.imitation m.builtins.heapExhausted) }.withBudget
            n) := by
        intro n
        rw [allocate_eq, there]
        rfl
      exact .throws (full m.budget) full
        (fun _ => R.stable still (.exception (R.closed still) exhausted)) precedes

/-- An allocation of an object that the machine may make at any time. -/
theorem meets_made (common : o.genus ≠ .form ∧ o.genus ≠ .journey)
    (holds : R.holds m → ∀ v ∈ o.links, m.heap.Refers v)
    (suits : R.holds m → m.heap.Shaped m.builtins → m.heap.Suits o) :
    Meets R env (allocate o) m fun h m' => m.Placed o h m' := by
  refine meets_allocation holds (fun _ => suits) fun heap kept made region => R.stable region ?_
  refine .kept (R.closed region) kept fun h p used => (made h p used).imp_right ?_
  rintro rfl
  exact common

theorem meets_allocate (common : o.genus ≠ .form ∧ o.genus ≠ .journey ∧ o.genus ≠ .imitation)
    (holds : R.holds m → ∀ v ∈ o.links, m.heap.Refers v) :
    Meets R env (allocate o) m fun h m' => m.Placed o h m' := by
  apply meets_made ⟨common.1, common.2.1⟩ holds
  rintro _ _ i rfl
  exact absurd rfl common.2.2

theorem meets_newText (content : String) :
    Meets R env (newText content) m fun v m' => m'.heap.Refers v :=
  (meets_allocate (by simp [Object.genus]) (by simp [Object.links])).bind fun _ _ _ placed =>
    .pure fun _ => (Heap.refers_text).mpr placed.holds

theorem newBook_placed {pages : Array Value}
    (holds : R.holds m → ∀ v ∈ pages.toList, m.heap.Refers v) :
    Meets R env (newBook pages) m fun v m' => ∃ h, v = .book h ∧ m.Placed (.book pages) h m' :=
  (meets_allocate (by simp [Object.genus]) holds).bind fun h _ _ placed =>
    .pure fun _ => ⟨h, rfl, placed⟩

theorem meets_newBook {pages : Array Value}
    (holds : R.holds m → ∀ v ∈ pages.toList, m.heap.Refers v) :
    Meets R env (newBook pages) m fun v m' => m'.heap.Refers v := by
  refine (newBook_placed holds).weaken ?_
  rintro _ m' _ ⟨h, rfl, placed⟩
  exact (Heap.refers_book).mpr placed.holds

end Allocation

section Throws

variable {α : Type} {Q : α → Machine → Prop}

theorem meets_raise {v : Value} (refers : R.holds m → m.heap.Refers v) :
    Meets R env (raise v : Run α) m Q :=
  .throws rfl (fun _ => rfl)
    (fun holds => R.stable holds (.exception (R.closed holds) (refers holds)))
    fun _ => .same rfl rfl

theorem meets_throwMessage {form : Handle}
    (own : form = m.builtins.exception ∨ form = m.builtins.ioError) (message : String) :
    Meets R env (throwMessage form message : Run α) m Q := by
  have member : .form form ∈ m.links := by
    rcases own with rfl | rfl <;> simp [Machine.links]
  refine .intro fun holds => ?_
  refine (meets_allocate (by simp [Object.genus]) (by simp [Object.links])).bind
    fun text m₁ _ placed => ?_
  refine (meets_made (by simp [Object.genus]) (fun _ v of => ?_) fun _ shaped i same => ?_).bind
    fun thrown m₂ _ made => ?_
  · simp only [Object.links, List.mem_cons, List.not_mem_nil, or_false] at of
    rcases of with rfl | rfl
    · exact placed.refers ((R.closed holds).links _ member) member
    · exact (Heap.refers_text).mpr placed.holds
  · cases same
    rw [placed.builtins] at shaped
    rcases own with rfl | rfl
    · exact shaped.exception
    · exact shaped.ioError
  · exact meets_raise fun _ => (Heap.refers_imitation).mpr made.holds

theorem meets_complain (complaint : Complaint) : Meets R env (complain complaint : Run α) m Q :=
  .get (fun _ => rfl) (meets_throwMessage (.inl rfl) _)

theorem meets_report (context : String) (trouble : Trouble) :
    Meets R env (report context trouble : Run α) m Q :=
  .get (fun _ => rfl) (meets_throwMessage (.inr rfl) _)

end Throws

section Edits

variable {h : Handle}

theorem meets_update {o : Object} {f : Object → Object} (used : m.heap.get? h = some o)
    (alike : Object.Alike o (f o)) (holds : R.holds m → ∀ v ∈ (f o).links, m.heap.Refers v)
    (guards : ∀ form after, o = .form form → f o = .form after →
      ∀ g ∈ form.guards, g.handle? ≠ none → g ∈ after.guards)
    (suits : m.heap.Shaped m.builtins → m.heap.Suits (f o))
    (keys : ∀ entries, o = .codex entries →
      ∃ after, f o = .codex after ∧ entries.map (·.1) <+: after.map (·.1)) :
    Meets R env (update h f) m fun _ m' => m.Edited h (f o) m' := by
  have only : ∀ p, m.heap.get? h = some p → p = o := fun p there =>
    Option.some.inj (there.symm.trans used)
  refine .changes (fun _ => rfl) (fun region => ⟨?_, Machine.edited used alike⟩) fun _ =>
    .modify (fun p there => only p there ▸ alike) fun shaped p there => only p there ▸ suits shaped
  exact R.stable region (.modify (R.closed region) used alike (holds region) guards keys)

theorem meets_editBook {f : Array Value → Array Value} (holds : strict → m.heap.Holds .book h)
    (refer : ∀ pages, m.heap.get? h = some (.book pages) → R.holds m →
      ∀ v ∈ (f pages).toList, m.heap.Refers v) :
    Meets R env (editBook h f) m fun _ m' =>
      ∃ pages, m.heap.get? h = some (.book pages) ∧ m.Edited h (.book (f pages)) m' := by
  refine (meets_book holds).discard.bind ?_
  rintro _ m' _ ⟨pages, rfl, used⟩
  refine (meets_update used .book (refer pages used) ?_ (fun _ _ same => by cases same) ?_).weaken
    fun _ _ _ edited => ⟨pages, used, edited⟩
  · intro form after same
    cases same
  · intro entries same
    cases same

theorem meets_editCodex {f : List (Value × Value) → List (Value × Value)}
    (keys : ∀ entries, entries.map (·.1) <+: (f entries).map (·.1))
    (holds : strict → m.heap.Holds .codex h)
    (refer : ∀ entries, m.heap.get? h = some (.codex entries) → R.holds m →
      ∀ v ∈ (f entries).flatMap (fun (k, v) => [k, v]), m.heap.Refers v) :
    Meets R env (editCodex h f) m fun _ m' =>
      ∃ entries, m.heap.get? h = some (.codex entries) ∧ m.Edited h (.codex (f entries)) m' := by
  refine (meets_codex holds).discard.bind ?_
  rintro _ m' _ ⟨entries, rfl, used⟩
  refine (meets_update used .codex (refer entries used) ?_ (fun _ _ same => by cases same) ?_).weaken
    fun _ _ _ edited => ⟨entries, used, edited⟩
  · intro form after same
    cases same
  · intro before same
    cases same
    exact ⟨f entries, rfl, keys entries⟩

/-- An entry may be taken out of a codex if that is noted. -/
theorem meets_removal {position : Nat} {entries : List (Value × Value)}
    (used : m.heap.get? h = some (.codex entries))
    (refer : R.holds m → ∀ v ∈ (entries.eraseIdx position).flatMap (fun (k, v) => [k, v]),
      m.heap.Refers v) :
    Meets R env (modify fun m => { m with
      heap := m.heap.modify h fun
        | .codex entries => .codex (entries.eraseIdx position)
        | object => object
      removals := (h, position) :: m.removals }) m fun _ m' =>
        m.Edited h (.codex (entries.eraseIdx position)) m' := by
  have only : ∀ p, m.heap.get? h = some p → p = .codex entries := fun p there =>
    Option.some.inj (there.symm.trans used)
  have edited := Machine.edited (m := m) (f := fun
    | .codex entries => .codex (entries.eraseIdx position)
    | object => object) used .codex
  have precedes : m.Precedes { m with
      heap := m.heap.modify h fun
        | .codex entries => .codex (entries.eraseIdx position)
        | object => object } := by
    apply Machine.Precedes.modify
    · intro p there
      rw [only p there]
      exact .codex
    · intro _ p there i same
      rw [only p there] at same
      cases same
  refine .changes (fun _ => rfl) (fun region => ⟨?_, ?_⟩) fun _ => precedes.trans (.same rfl rfl)
  · exact R.stable region (.removal (R.closed region) used (refer region))
  · exact ⟨edited.object, edited.others, edited.refers⟩

theorem meets_editForm {f : Form → Form} (holds : strict → m.heap.Holds .form h)
    (alike : ∀ form : Form, form.Alike (f form))
    (guards : ∀ form, ∀ g ∈ form.guards, g.handle? ≠ none → g ∈ (f form).guards)
    (refer : ∀ form, m.heap.get? h = some (.form form) → R.holds m →
      ∀ v ∈ (f form).links, m.heap.Refers v) :
    Meets R env (editForm h f) m fun _ _ => True := by
  refine (meets_form holds).discard.bind ?_
  rintro _ m' _ ⟨form, rfl, used⟩
  refine (meets_update used (.form (alike form)) (refer form used) ?_
    (fun _ _ same => by cases same) ?_).weaken fun _ _ _ _ => trivial
  · intro before after same changed
    cases same
    cases changed
    exact guards form
  · intro entries same
    cases same

theorem meets_editImitation {f : Imitation → Imitation} (holds : strict → m.heap.Holds .imitation h)
    (form : ∀ i, (f i).form = i.form)
    (size : ∀ i, m.heap.get? h = some (.imitation i) → m.heap.Shaped m.builtins →
      (f i).matter.size = i.matter.size)
    (refer : ∀ i, m.heap.get? h = some (.imitation i) → R.holds m →
      ∀ v ∈ (f i).matter.toList, m.heap.Refers v) :
    Meets R env (editImitation h f) m fun _ _ => True := by
  refine (meets_imitation holds).discard.bind ?_
  rintro _ m' _ ⟨i, rfl, used⟩
  refine (meets_update used (.imitation (form i)) (fun region v of => ?_) ?_
    (fun shaped after same => ?_) ?_).weaken fun _ _ _ _ => trivial
  · rcases List.mem_cons.mp of with rfl | field
    · rw [form]
      exact (R.closed region).heap h _ used _ (List.mem_cons_self ..)
    · exact refer i used region v field
  · intro before after same
    cases same
  · cases same
    rw [form i, size i used shaped]
    exact shaped.suited h _ used i rfl
  · intro entries same
    cases same

end Edits

section Lists

variable {α β : Type}

theorem Meets.mapM {f : α → Run β} {l : List α}
    (each : ∀ a ∈ l, ∀ m, Meets R env (f a) m fun _ _ => True) :
    Meets R env (l.mapM f) m fun _ _ => True := by
  induction l generalizing m with
  | nil => exact .pure fun _ => trivial
  | cons a rest ih =>
    rw [List.mapM_cons]
    refine (each a (List.mem_cons_self ..) m).bind fun b m₁ _ _ => ?_
    refine (ih fun c member => each c (List.mem_cons_of_mem _ member)).bind fun bs m₂ _ _ => ?_
    exact .pure fun _ => trivial

theorem Meets.anyM {f : α → Run Bool} {l : List α}
    (each : ∀ a ∈ l, ∀ m, Meets R env (f a) m fun _ _ => True) :
    Meets R env (l.anyM f) m fun _ _ => True := by
  induction l generalizing m with
  | nil => exact .pure fun _ => trivial
  | cons a rest ih =>
    refine (each a (List.mem_cons_self ..) m).bind fun found m₁ _ _ => ?_
    cases found with
    | true => exact .pure fun _ => trivial
    | false => exact ih fun c member => each c (List.mem_cons_of_mem _ member)

end Lists

end Run

end JourneyMachine
