import JourneyMachine.Proofs.Containers.Insertion
import JourneyMachine.Proofs.Seclusion.Fresh

/-! Map, select and reduce. The pages that an operation goes over are those that the book has when
it starts. They are pinned, so the journey may change or empty the book and collect: every page is
still there when its turn comes. The book that is filled is new and secluded, so what was noted in it
is all that is in it. -/

namespace JourneyMachine

namespace Run

open Machine (Within Intact calling)

variable {α β σ : Type} {env : Env} {m m₁ m' : Machine}

/-- Pages are taken one after the other, each step in the machine that the one before has left, and
all steps return. What is kept holds before each step and in the end. -/
inductive Folds (env : Env) (step : σ → Value → Run σ) (kept : σ → Machine → Prop) :
    σ → List Value → Machine → σ → Machine → Prop where
  | nil {a : σ} {m : Machine} : kept a m → Folds env step kept a [] m a m
  | cons {a b c : σ} {page : Value} {rest : List Value} {m m₁ m' : Machine} : kept a m →
      step a page env m = .ok b m₁ → Folds env step kept b rest m₁ c m' →
      Folds env step kept a (page :: rest) m c m'

/-- How a fold over pages ends: all were taken, or the step for one of them did not return, and then
no other is taken. -/
inductive Ended (env : Env) (step : σ → Value → Run σ) (kept : σ → Machine → Prop) (a : σ)
    (pages : List Value) (m : Machine) : EStateM.Result Unwind Machine σ → Prop where
  | all {b : σ} {m' : Machine} : Folds env step kept a pages m b m' →
      Ended env step kept a pages m (.ok b m')
  | stopped {done rest : List Value} {page : Value} {b : σ} {m₁ m' : Machine} {unwind : Unwind} :
      pages = done ++ page :: rest → Folds env step kept a done m b m₁ →
      step b page env m₁ = .error unwind m' → Ended env step kept a pages m (.error unwind m')

/-- A page is asked about, and a book is given the contents that follow from the answers so far. -/
def noting (target : Handle) (ask : Value → Run β) (contents : List (Value × β) → List Value)
    (asked : List (Value × β)) (page : Value) : Run (List (Value × β)) := do
  let answer ← ask page
  let asked := asked ++ [(page, answer)]
  modify (·.write target (contents asked))
  return asked

/-- The book has the contents that follow from the answers so far, and only a pin refers to it. -/
def Noted (target : Handle) (contents : List (Value × β) → List Value) (pins : List Value)
    (asked : List (Value × β)) (m : Machine) : Prop :=
  m.Intact pins target (.book (contents asked).toArray)

/-- How an operation ends that fills a new book with what follows from the answers about pages: there
is no room for a book; all pages were asked about, once and in order, and the book has the contents;
or the question about one of them did not return. -/
inductive Fills (env : Env) (m : Machine) (pages : List Value) (ask : Value → Run β)
    (contents : List (Value × β) → List Value) : EStateM.Result Unwind Machine Value → Prop where
  | full {m' : Machine} : allocate (.book #[]) env m = .error .thrown m' →
      m'.handlers.exception = .imitation m.builtins.heapExhausted →
      Fills env m pages ask contents (.error .thrown m')
  | filled {target : Handle} {asked : List (Value × β)} {m₁ m' : Machine} :
      allocate (.book #[]) env m = .ok target m₁ → ¬ m.heap.Reachable m.roots target →
      Folds env (noting target ask contents) (Noted target contents (.book target :: m.pinned)) []
        pages (m₁.pin [.book target]) asked m' →
      asked.map (·.1) = pages → m'.heap.get? target = some (.book (contents asked).toArray) →
      Fills env m pages ask contents (.ok (.book target) m')
  | failed {target : Handle} {unwind : Unwind} {m₁ m' : Machine} :
      allocate (.book #[]) env m = .ok target m₁ →
      Ended env (noting target ask contents) (Noted target contents (.book target :: m.pinned)) []
        pages (m₁.pin [.book target]) (.error unwind m') →
      Fills env m pages ask contents (.error unwind m')

section Folding

variable {step : σ → Value → Run σ} {kept : σ → Machine → Prop} {a b : σ} {pages : List Value}

theorem Folds.last (folds : Folds env step kept a pages m b m') : kept b m' := by
  induction folds with
  | nil holds => exact holds
  | cons _ _ _ ih => exact ih

theorem Ended.cons {page : Value} {r : EStateM.Result Unwind Machine σ} (holds : kept a m)
    (returned : step a page env m = .ok b m₁) (ended : Ended env step kept b pages m₁ r) :
    Ended env step kept a (page :: pages) m r := by
  cases ended with
  | all folds => exact .all (.cons holds returned folds)
  | stopped split folds failed =>
    exact .stopped (congrArg (page :: ·) split) (.cons holds returned folds) failed

def returning (f : σ → α) : EStateM.Result Unwind Machine σ → EStateM.Result Unwind Machine α
  | .ok a m => .ok (f a) m
  | .error unwind m => .error unwind m

/-- A loop over pages ends as the fold of its steps, if the steps keep what is to be kept. -/
theorem ended_of_loop (loop : σ → List Value → Run α) (finish : σ → α)
    (stop : ∀ a, loop a [] = pure (finish a))
    (turn : ∀ a page rest m, page ∈ pages → kept a m →
      loop a (page :: rest) env m = (step a page >>= fun b => loop b rest) env m)
    (keeps : ∀ a page b m m', page ∈ pages → kept a m → step a page env m = .ok b m' → kept b m')
    (holds : kept a m) :
    ∃ r, Ended env step kept a pages m r ∧ loop a pages env m = returning finish r := by
  induction pages generalizing a m with
  | nil => exact ⟨_, .all (.nil holds), by rw [stop]; rfl⟩
  | cons page rest ih =>
    have here := List.mem_cons_self (a := page) (l := rest)
    rw [turn a page rest m here holds]
    cases same : step a page env m with
    | ok b m₁ =>
      obtain ⟨r, ended, equal⟩ := ih
        (fun a page rest m member => turn a page rest m (List.mem_cons_of_mem _ member))
        (fun a page b m m' member => keeps a page b m m' (List.mem_cons_of_mem _ member))
        (keeps a page b m m₁ here holds same)
      exact ⟨r, ended.cons holds same, (bind_ok same).trans equal⟩
    | error unwind m₁ =>
      have split : page :: rest = [] ++ page :: rest := rfl
      exact ⟨_, .stopped split (.nil holds) same, bind_error same⟩

end Folding

section Filling

variable {target : Handle} {pins pages : List Value} {ask : Value → Run β}
  {contents : List (Value × β) → List Value} {adds : Value → β → List Value}

/-- Questions about pages that can be asked while a secluded book is filled. What an answer adds to
the book is there when it is given, and does not refer to the book. -/
structure Asks (env : Env) (target : Handle) (pins pages : List Value) (ask : Value → Run β)
    (adds : Value → β → List Value) : Prop where
  meets : ∀ page ∈ pages, ∀ m : Machine, m.Closed → m.pinned = pins →
    Meets (.within False m) env (ask page) m fun b m' => ∀ v ∈ adds page b, m'.heap.Refers v
  spares : ∀ page ∈ pages, Spares target env (ask page) fun b => ∀ v ∈ adds page b, v.Avoids target

structure Adds (contents : List (Value × β) → List Value) (adds : Value → β → List Value) :
    Prop where
  nil : contents [] = []
  append : ∀ asked page b, contents (asked ++ [(page, b)]) = contents asked ++ adds page b

theorem Asks.answered (asks : Asks env target pins pages ask adds) {page : Value}
    (member : page ∈ pages) {asked : List (Value × β)} (noted : Noted target contents pins asked m)
    {b : β} (returned : ask page env m = .ok b m') :
    Noted target contents pins asked m' ∧ ∀ v ∈ adds page b, m'.heap.Refers v ∧ v.Avoids target := by
  obtain ⟨intact, refer, avoid⟩ := intact_ok noted
    (asks.meets page member m noted.closed noted.pinned) (asks.spares page member) returned
  exact ⟨intact, fun v added => ⟨refer v added, avoid v added⟩⟩

theorem Noted.add {asked : List (Value × β)} (noted : Noted target contents pins asked m)
    (sums : Adds contents adds) {page : Value} {b : β}
    (known : ∀ v ∈ adds page b, m.heap.Refers v ∧ v.Avoids target) :
    Noted target contents pins (asked ++ [(page, b)])
      (m.write target (contents (asked ++ [(page, b)]))) := by
  apply Intact.write noted
  intro v member
  rw [sums.append] at member
  rcases List.mem_append.mp member with old | new
  · exact noted.page (by simpa using old)
  · exact known v new

theorem noting_ok {asked : List (Value × β)} {page : Value} {b : β}
    (returned : ask page env m = .ok b m') :
    noting target ask contents asked page env m =
      .ok (asked ++ [(page, b)]) (m'.write target (contents (asked ++ [(page, b)]))) :=
  bind_ok returned

theorem noting_eq_ok {asked now : List (Value × β)} {page : Value}
    (returned : noting target ask contents asked page env m = .ok now m') :
    ∃ b m₁, ask page env m = .ok b m₁ ∧ now = asked ++ [(page, b)] ∧
      m' = m₁.write target (contents now) := by
  cases same : ask page env m with
  | ok b m₁ =>
    rw [noting_ok same] at returned
    cases returned
    exact ⟨b, m₁, rfl, rfl, rfl⟩
  | error unwind m₁ =>
    have failed : noting target ask contents asked page env m = .error unwind m₁ := bind_error same
    cases failed.symm.trans returned

theorem Folds.asked {kept : List (Value × β) → Machine → Prop} {before after : List (Value × β)}
    (folds : Folds env (noting target ask contents) kept before pages m after m') :
    after.map (·.1) = before.map (·.1) ++ pages := by
  induction folds with
  | nil => rw [List.append_nil]
  | cons _ returned _ ih =>
    obtain ⟨b, _, _, rfl, _⟩ := noting_eq_ok returned
    rw [ih]
    simp

/-- A loop that asks about each page and notes what the answer adds. -/
structure Filler (ask : Value → Run β) (note : Value → β → Run Unit)
    (adds : Value → β → List Value) (target : Handle) (loop : List Value → Run Unit) : Prop where
  stop : loop [] = pure ()
  turn : ∀ page rest, loop (page :: rest) = (do let b ← ask page; note page b; loop rest)
  notes : ∀ page b env m before, m.heap.get? target = some (.book before) →
    note page b env m = .ok () (m.write target (before.toList ++ adds page b))

variable {note : Value → β → Run Unit}

/-- While nothing else comes by the book, the loop ends as the fold that sets the contents. -/
theorem Filler.ended {loop : List Value → Run Unit} (filler : Filler ask note adds target loop)
    (sums : Adds contents adds) (asks : Asks env target pins pages ask adds)
    (noted : Noted target contents pins [] m) :
    ∃ r, Ended env (noting target ask contents) (Noted target contents pins) [] pages m r ∧
      loop pages env m = returning (fun _ => ()) r := by
  refine ended_of_loop (fun _ => loop) _ (fun _ => filler.stop) ?_ ?_ noted
  · intro asked page rest m member noted
    rw [filler.turn page rest]
    cases same : ask page env m with
    | ok b m₁ =>
      obtain ⟨still, _⟩ := asks.answered member noted same
      have written := filler.notes page b env m₁ _ still.secluded.used
      rw [← sums.append] at written
      rw [bind_ok same, bind_ok written, bind_ok (noting_ok same)]
    | error unwind m₁ =>
      have failed : noting target ask contents asked page env m = .error unwind m₁ :=
        bind_error same
      rw [bind_error same, bind_error failed]
  · intro asked page now m m' member noted returned
    obtain ⟨b, m₁, same, rfl, rfl⟩ := noting_eq_ok returned
    obtain ⟨still, known⟩ := asks.answered member noted same
    exact still.add sums known

theorem release_release (older newer : Nat) (le : older ≤ newer)
    (r : EStateM.Result Unwind Machine α) : release older (release newer r) = release older r := by
  have unpins : ∀ m : Machine, (m.unpin newer).unpin older = m.unpin older := by
    intro m
    simp only [Machine.unpin, oldest, List.length_drop, List.drop_drop]
    congr 2
    omega
  rcases r with ⟨a, m⟩ | ⟨_ | _ | _, m⟩ <;> simp only [release, unpins]

/-- An operation that fills a new book with a loop over pages. -/
theorem fills {note : Handle → Value → β → Run Unit} {loop : Handle → List Value → Run Unit}
    (closed : m.Closed) (fillers : ∀ target, Filler ask (note target) adds target (loop target))
    (sums : Adds contents adds)
    (asks : ∀ target, (∀ v ∈ m.links, v.Avoids target) →
      Asks env target (.book target :: m.pinned) pages ask adds)
    {older : Nat} (le : older ≤ m.pinned.length) :
    ∃ r, Fills env m pages ask contents r ∧
      release older ((do
        let target ← allocate (.book #[])
        withPinned [.book target] do
          loop target pages
          return Value.book target) env m) = release older r := by
  cases made : allocate (.book #[]) env m with
  | error unwind m₁ =>
    -- A full heap is the only reason why no book is made.
    have threw : unwind = .thrown ∧
        m₁.handlers.exception = .imitation m.builtins.heapExhausted := by
      rw [allocate_eq] at made
      split at made
      · cases made
      · cases made
        exact ⟨rfl, rfl⟩
    obtain ⟨rfl, exhausted⟩ := threw
    exact ⟨_, .full made exhausted, congrArg (release older) (bind_error made)⟩
  | ok target m₁ =>
    obtain ⟨intact, avoid, lost⟩ := allocate_secludes closed made
    have pins : m₁.pinned = m.pinned := (List.cons.inj intact.pinned).2
    have noted : Noted target contents (.book target :: m.pinned) [] (m₁.pin [.book target]) := by
      rw [Noted, sums.nil]
      exact intact
    obtain ⟨r, ended, looped⟩ := (fillers target).ended sums (asks target avoid) noted
    have ran : (do loop target pages; return Value.book target : Run Value) env
        (m₁.pin [.book target]) = returning (fun _ => Value.book target) r := by
      cases r with
      | ok asked m' => exact bind_ok looped
      | error unwind m' => exact bind_error looped
    refine ⟨returning (fun _ => Value.book target) r, ?_, ?_⟩
    · cases ended with
      | all folds => exact .filled made lost folds folds.asked folds.last.secluded.used
      | stopped split folds failed => exact .failed made (.stopped split folds failed)
    · rw [bind_ok made, withPinned_eq, ran, pins]
      exact release_release older m.pinned.length le _

end Filling

section Operators

variable {h j target : Handle} {pages : Array Value} {pins : List Value} {callee : Value}

theorem editBook_push {v : Value} {before : Array Value}
    (used : m.heap.get? target = some (.book before)) :
    editBook target (·.push v) env m = .ok () (m.write target (before.toList ++ [v])) := by
  have same : m.rewrite target (·.push v) = m.write target (before.toList ++ [v]) := by
    have heaps := Heap.modify_congr (f := Object.mapPages (·.push v))
      (g := fun _ => .book (before.toList ++ [v]).toArray) fun o there => by
        cases Option.some.inj (used.symm.trans there)
        exact congrArg Object.book (Array.toList_inj.mp Array.toList_push)
    rw [Machine.rewrite, Machine.write, heaps]
  rw [editBook_eq used, same]

/-- Nothing is noted where an answer adds nothing. -/
theorem write_same {before : Array Value} (used : m.heap.get? target = some (.book before)) :
    m.write target before.toList = m := by
  have heaps : m.heap.modify target (fun _ => .book before.toList.toArray) = m.heap :=
    Heap.modify_back fun o there => by
      cases Option.some.inj (used.symm.trans there)
      rfl
  rw [Machine.write, heaps]

theorem filler_map (callee : Value) (target : Handle) :
    Filler (fun page => call callee [page]) (fun _ v => editBook target (·.push v))
      (fun _ v => [v]) target (mapPages callee target) where
  stop := rfl
  turn _ _ := rfl
  notes _ _ _ _ _ used := editBook_push used

theorem filler_select (callee : Value) (target : Handle) :
    Filler (fun page => do toVeracity (← call callee [page]))
      (fun page keep => if keep then editBook target (·.push page) else pure ())
      (fun page keep => if keep then [page] else []) target (selectPages callee target) where
  stop := rfl
  turn page rest := by
    rw [selectPages, bind_assoc]
    congr
    funext answer
    congr
    funext keep
    cases keep <;> rfl
  notes page keep env m before used := by
    cases keep
    · rw [if_neg Bool.false_ne_true, if_neg Bool.false_ne_true, List.append_nil, write_same used]
      rfl
    · exact editBook_push used

theorem adds_map : Adds (fun asked : List (Value × Value) => asked.map (·.2)) fun _ v => [v] where
  nil := rfl
  append _ _ _ := List.map_append

theorem adds_select : Adds (fun asked : List (Value × Bool) => (asked.filter (·.2)).map (·.1))
    fun page keep => if keep then [page] else [] where
  nil := rfl
  append _ _ keep := by cases keep <;> simp

theorem pinned_refers (closed : m.Closed) {v : Value} (member : v ∈ m.pinned) :
    m.heap.Refers v := closed.held (List.mem_append_left _ member)

section Questions

variable {list : List Value} (calls : env.Calls False) (spares : env.Spares target)
  (held : ∀ v ∈ callee :: list, v ∈ pins) (avoid : ∀ v ∈ callee :: list, v.Avoids target)

include calls held in
theorem meets_question (closed : m.Closed) (pinned : m.pinned = pins) {page : Value}
    (member : page ∈ list) :
    Meets (.within False m) env (call callee [page]) m fun v m' => m'.heap.Refers v := by
  have refers : ∀ v ∈ callee :: list, m.heap.Refers v := fun v there =>
    pinned_refers closed (pinned ▸ held v there)
  have refer : ∀ v ∈ [callee, page], m.heap.Refers v := List.forall_mem_cons.mpr
    ⟨refers callee (List.mem_cons_self ..),
      List.forall_mem_singleton.mpr (refers page (List.mem_cons_of_mem _ member))⟩
  exact (meets_call calls refer).weaken fun _ _ _ post => post.1

include spares avoid in
theorem spares_question {page : Value} (member : page ∈ list) :
    Spares target env (call callee [page]) (·.Avoids target) :=
  .call spares (avoid callee (List.mem_cons_self ..))
    (List.forall_mem_singleton.mpr (avoid page (List.mem_cons_of_mem _ member)))

include calls spares held avoid

theorem asks_map : Asks env target pins list (fun page => call callee [page]) fun _ v => [v] where
  meets _ member _ closed pinned :=
    (meets_question calls held closed pinned member).weaken fun _ _ _ refers =>
      List.forall_mem_singleton.mpr refers
  spares _ member :=
    (spares_question spares avoid member).weaken fun _ avoids => List.forall_mem_singleton.mpr avoids

theorem asks_select : Asks env target pins list (fun page => do toVeracity (← call callee [page]))
    fun page keep => if keep then [page] else [] where
  meets page member m closed pinned := by
    refine (meets_question calls held closed pinned member).bind fun v m₁ _ refers => ?_
    refine (meets_toVeracity calls refers).weaken fun keep m' within _ => ?_
    have there : page ∈ m.held := List.mem_append_left _
      (pinned ▸ held page (List.mem_cons_of_mem _ member))
    cases keep
    · exact fun _ none => absurd none List.not_mem_nil
    · exact List.forall_mem_singleton.mpr (within.refers there)
  spares page member := by
    refine (spares_question spares avoid member).bind fun v avoids => ?_
    refine (spares_toVeracity spares avoids).weaken fun keep _ => ?_
    cases keep
    · exact fun _ none => absurd none List.not_mem_nil
    · exact List.forall_mem_singleton.mpr (avoid page (List.mem_cons_of_mem _ member))

end Questions

theorem withPages_book (used : m.heap.get? h = some (.book pages)) (journey : Value)
    (body : List Value → Run α) :
    withPages (.book h) journey body env m = release m.pinned.length
      (body pages.toList env (m.pin (.book h :: journey :: pages.toList))) := by
  have read : withPages (.book h) journey body env m =
      withPinned (.book h :: journey :: pages.toList) (body pages.toList) env m :=
    bind_ok (read_book used)
  rw [read, withPinned_eq]

theorem bookReduce_book {first : Value} {rest : List Value}
    (used : m.heap.get? h = some (.book pages)) (split : pages.toList = first :: rest) :
    bookReduce (.book h) callee env m = release m.pinned.length
      (reducePages callee first rest env (m.pin (.book h :: callee :: pages.toList))) := by
  rw [bookReduce, withPages_book used]
  generalize m.pin _ = start
  rw [split]

/-- The accumulator of a fold is there, and the pins are those at its start. -/
def Accumulates (pins : List Value) (acc : Value) (m : Machine) : Prop :=
  m.Closed ∧ m.pinned = pins ∧ m.heap.Refers acc

/-- The call that combines the accumulator, which is pinned meanwhile, with a page. -/
def combine (callee acc page : Value) : Run Value :=
  withPinned [acc] (call callee [acc, page])

theorem combine_keeps (calls : env.Calls False) {list : List Value}
    (held : ∀ v ∈ callee :: list, v ∈ pins) {acc next page : Value} (member : page ∈ list)
    (accumulates : Accumulates pins acc m) (returned : combine callee acc page env m = .ok next m') :
    Accumulates pins next m' := by
  obtain ⟨closed, pinned, refers⟩ := accumulates
  have start : (m.pin [acc]).Closed := closed.pin (List.forall_mem_singleton.mpr refers)
  have known : ∀ v ∈ callee :: list, (m.pin [acc]).heap.Refers v := fun v there =>
    pinned_refers closed (pinned ▸ held v there)
  have refer : ∀ v ∈ [callee, acc, page], (m.pin [acc]).heap.Refers v :=
    List.forall_mem_cons.mpr ⟨known callee (List.mem_cons_self ..), List.forall_mem_cons.mpr ⟨refers,
      List.forall_mem_singleton.mpr (known page (List.mem_cons_of_mem _ member))⟩⟩
  have meets : Meets (.within False m) env (combine callee acc page) m fun v m' =>
      (∀ w ∈ [acc], m'.heap.Refers w) ∧ m'.heap.Refers v :=
    .withPinned (Q := fun v heap => heap.Refers v) (fun _ => List.forall_mem_singleton.mpr refers)
      ((meets_call calls refer).weaken fun _ _ _ post => post.1)
  have outcome := meets (.refl closed) False.elim
  rw [returned] at outcome
  exact ⟨outcome.1.closed, outcome.1.pinned.trans pinned, outcome.2.1.2⟩

end Operators

end Run

namespace Machine

open Run

variable {m : Machine} {h j : Handle} {pages : Array Value}

/-- Map, select and reduce work on the pages that the book had when they started, whatever the journey
does. Map fills a new book with what the journey gave for each page, select with the pages for which
it gave something true, and reduce combines the pages from the left. The journey is called once for
each page and in order, as long as its calls return; one that does not ends the operation. Only where
there is no room for the new book is it not called at all. -/
theorem operators_take_snapshot (closed : m.Closed) (used : m.heap.get? h = some (.book pages))
    (refers : m.heap.Refers (.journey j)) (depth : Nat) :
    let env := calling depth
    let pinned := m.pin (.book h :: .journey j :: pages.toList)
    (∃ r, Fills env pinned pages.toList (fun page => call (.journey j) [page])
        (fun asked => asked.map (·.2)) r ∧
      mul (.book h) (.journey j) env m = release m.pinned.length r) ∧
    (∃ r, Fills env pinned pages.toList (fun page => do toVeracity (← call (.journey j) [page]))
        (fun asked => (asked.filter (·.2)).map (·.1)) r ∧
      add (.book h) (.journey j) env m = release m.pinned.length r) ∧
    (pages = #[] → rem (.book h) (.journey j) env m = .ok .ni m) ∧
    ∀ first rest, pages.toList = first :: rest →
      ∃ r, Ended env (combine (.journey j)) (Accumulates pinned.pinned) first rest pinned r ∧
        rem (.book h) (.journey j) env m = release m.pinned.length r := by
  intro env pinned
  have calls : env.Calls False := callAt_calls False depth depth
  have spares : ∀ target, env.Spares target := fun target => callAt_spares target depth depth
  have refer : ∀ v ∈ Value.book h :: .journey j :: pages.toList, m.heap.Refers v := by
    simp only [List.forall_mem_cons]
    exact ⟨Heap.refers_book.mpr ⟨_, used, rfl⟩, refers, fun v => closed.heap h _ used v⟩
  have start : pinned.Closed := closed.pin refer
  have held : ∀ v ∈ Value.journey j :: pages.toList, v ∈ pinned.pinned := fun v member =>
    List.mem_append_left _ (List.mem_cons_of_mem _ member)
  have pins : ∀ target, ∀ v ∈ Value.journey j :: pages.toList,
      v ∈ Value.book target :: pinned.pinned :=
    fun target v member => List.mem_cons_of_mem _ (held v member)
  -- A book allocated later is none of the values that the operators hold on to.
  have away : ∀ target, (∀ v ∈ pinned.links, v.Avoids target) →
      ∀ v ∈ Value.journey j :: pages.toList, v.Avoids target :=
    fun target avoid v member => avoid v (held_sub_links (List.mem_append_left _ (held v member)))
  have le : m.pinned.length ≤ pinned.pinned.length := List.length_append ▸ Nat.le_add_left ..
  have reduced : rem (.book h) (.journey j) = bookReduce (.book h) (.journey j) := rfl
  refine ⟨?_, ?_, ?_, ?_⟩
  · obtain ⟨r, fills, same⟩ := fills start (filler_map (.journey j)) adds_map
      (fun target avoid => asks_map calls (spares target) (pins target) (away target avoid)) le
    have mapped : mul (.book h) (.journey j) = bookMap (.book h) (.journey j) := rfl
    rw [mapped, bookMap, withPages_book used]
    exact ⟨r, fills, same⟩
  · obtain ⟨r, fills, same⟩ := fills start (filler_select (.journey j)) adds_select
      (fun target avoid => asks_select calls (spares target) (pins target) (away target avoid)) le
    have selected : add (.book h) (.journey j) = bookSelect (.book h) (.journey j) := rfl
    rw [selected, bookSelect, withPages_book used]
    exact ⟨r, fills, same⟩
  · rintro rfl
    rw [reduced, bookReduce, withPages_book used]
    exact congrArg (EStateM.Result.ok Value.ni) (unpin_pin m _)
  · intro first rest split
    have accumulates : Accumulates pinned.pinned first pinned :=
      ⟨start, rfl, refer first (by simp [split])⟩
    obtain ⟨r, ended, same⟩ : ∃ r, Ended env (combine (.journey j)) (Accumulates pinned.pinned)
        first rest pinned r ∧ reducePages (.journey j) first rest env pinned = returning id r :=
      ended_of_loop _ id (fun _ => rfl) (fun _ _ _ _ _ _ => rfl)
        (fun _ _ _ _ _ member => combine_keeps calls held (split ▸ List.mem_cons_of_mem _ member))
        accumulates
    refine ⟨r, ended, ?_⟩
    rw [reduced, bookReduce_book used split, same]
    cases r <;> rfl

/-- A machine whose heap is full: a book without pages, a journey, and what is built in. -/
def crowded : Machine :=
  { Run.bare [.book #[], .journey { name := "j" }, .form { name := "F" },
      .imitation { form := ⟨2⟩, matter := #[] }] with
    builtins := { exception := ⟨2⟩, ioError := ⟨2⟩, heapExhausted := ⟨3⟩ } }

/-- What a computation gives and the machine that it leaves, if it returns. -/
def given {α : Type} : EStateM.Result Unwind Machine α → Option (α × Machine)
  | .ok a m => some (a, m)
  | .error _ _ => none

theorem given_eq_some {α : Type} {r : EStateM.Result Unwind Machine α} {e : α × Machine} :
    given r = some e ↔ r = .ok e.1 e.2 := by
  cases r <;> simp [given, Prod.ext_iff]

/-- Map needs room for a book, also where there is no page to call the journey with. -/
theorem crowded_refuses : crowded.Closed ∧ crowded.heap.get? ⟨0⟩ = some (.book #[]) ∧
    crowded.heap.Refers (.journey ⟨1⟩) ∧
    ∀ v m', mul (.book ⟨0⟩) (.journey ⟨1⟩) (calling 9) crowded ≠ .ok v m' := by
  refine ⟨bare_closed rfl rfl (by decide), Run.bare_get _ ⟨0⟩,
    Heap.refers_journey.mpr ⟨_, Run.bare_get _ ⟨1⟩, rfl⟩, ?_⟩
  have none : (given (mul (.book ⟨0⟩) (.journey ⟨1⟩) (calling 9) crowded)).isNone = true := by
    decide +kernel
  intro v m' done
  rw [done] at none
  cases none

/-- A journey that returns the page it is given, but only after taking the first page out of the book
in the first global and calling what is in the second. -/
def withdraw : Pattern where
  positional := [{ name := "page" }]
  block :=
    { registers := 4
      constants := #[.numeral 1]
      code := #[Opcode.gload.word, 0, 1, Opcode.cload.word, 0, 2,
        Opcode.int.word, Interrupt.arrayDelete.word, 1, 2, 3,
        Opcode.gload.word, 1, 1, Opcode.call.word, 1, 0, 2, Opcode.ret.word, 0] }

/-- A book of two texts, the journey, and a host journey that collects. Nothing refers to the last
text. -/
def library : List Object :=
  [.book #[.text ⟨1⟩, .text ⟨2⟩],
    .text "first",
    .text "second",
    .journey { name := "withdraw", patterns := [withdraw] },
    .other (.host { name := "collect", arity := some 0, routine := .probe .collect }),
    .form { name := "F" },
    .imitation { form := ⟨5⟩, matter := #[] },
    .text "lost"]

/-- A machine where the book and the host journey are in the globals. Its heap is full. -/
def shelving : Machine :=
  { Run.bare library with
    program := { globals := #[("pages", .book ⟨0⟩), ("collect", .other ⟨4⟩)] }
    builtins := { exception := ⟨5⟩, ioError := ⟨5⟩, heapExhausted := ⟨6⟩ }
    budget := 30 }

theorem shelving_closed : shelving.Closed := bare_closed rfl rfl (by decide)

/-- The journey is called with both pages, although the first call takes one out of the book and the
second the other. -/
theorem shelving_mapped : shelving.Closed ∧
    shelving.heap.get? ⟨0⟩ = some (.book #[.text ⟨1⟩, .text ⟨2⟩]) ∧
    shelving.heap.Refers (.journey ⟨3⟩) ∧ ∃ asked s m₁ m',
    mul (.book ⟨0⟩) (.journey ⟨3⟩) (calling 9) shelving = .ok (.book ⟨7⟩) s ∧
    s.heap.get? ⟨0⟩ = some (.book #[]) ∧
    Folds (calling 9) (noting ⟨7⟩ (fun page => call (.journey ⟨3⟩) [page]) (·.map (·.2)))
      (Noted ⟨7⟩ (·.map (·.2)) [.book ⟨7⟩, .book ⟨0⟩, .journey ⟨3⟩, .text ⟨1⟩, .text ⟨2⟩]) []
      [.text ⟨1⟩, .text ⟨2⟩] m₁ asked m' ∧
    asked = [(.text ⟨1⟩, .text ⟨1⟩), (.text ⟨2⟩, .text ⟨2⟩)] := by
  have used : shelving.heap.get? ⟨0⟩ = some (.book #[.text ⟨1⟩, .text ⟨2⟩]) := Run.bare_get _ ⟨0⟩
  have journey : shelving.heap.Refers (.journey ⟨3⟩) :=
    Heap.refers_journey.mpr ⟨_, Run.bare_get _ ⟨3⟩, rfl⟩
  have evaluated : (given (mul (.book ⟨0⟩) (.journey ⟨3⟩) (calling 9) shelving)).map
      (fun e => (e.1, e.2.heap.get? ⟨0⟩, e.2.heap.get? ⟨7⟩)) =
      some (.book ⟨7⟩, some (.book #[]), some (.book #[.text ⟨1⟩, .text ⟨2⟩])) := by
    decide +kernel
  obtain ⟨⟨v, s⟩, returned, seen⟩ := Option.map_eq_some_iff.mp evaluated
  obtain ⟨rfl, emptied, copied⟩ := by simpa only [Prod.mk.injEq] using seen
  have done := given_eq_some.mp returned
  obtain ⟨⟨r, fills, same⟩, _⟩ := operators_take_snapshot shelving_closed used journey 9
  rw [done] at same
  refine ⟨shelving_closed, used, journey, ?_⟩
  cases fills with
  | full failed => cases same
  | failed made ended => rename_i unwind _ _; cases unwind <;> cases same
  | @filled target asked m₁ m' made fresh folds pages contents =>
    obtain ⟨equal, rfl⟩ := EStateM.Result.ok.inj same
    cases equal
    refine ⟨asked, _, _, m', done, emptied, folds, ?_⟩
    have answers : asked.map (·.2) = [.text ⟨1⟩, .text ⟨2⟩] := by
      have book := contents.symm.trans copied
      simpa using book
    rw [← List.zip_unzip asked]
    simp [List.unzip_eq_map, pages, answers]

end Machine

end JourneyMachine
