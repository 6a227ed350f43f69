import JourneyMachine.Proofs.Control.Conversions

namespace JourneyMachine.Run

open Host (Exchange Platform)

variable {α : Type} {own : Nat} {env : Env} {m : Machine}

theorem orderly_cannotApply (operator : BinaryOperator) (lhs rhs : Value) :
    Orderly own env (cannotApply operator lhs rhs : Run α) m :=
  (Orderly.onHeap).bind fun _ _ => (Orderly.onHeap).bind fun _ _ => orderly_complain _

theorem orderly_pagePosition (index : Int64) (length : Nat) :
    Orderly own env (pagePosition index length) m :=
  .ite (orderly_complain _) (.ite (orderly_complain _) .pure)

theorem orderly_growBook (h : Handle) (length : Nat) : Orderly own env (growBook h length) m :=
  (Orderly.onHeap).bind fun _ _ => .ite .pure (.ite (orderly_complain _) (orderly_editBook ..))

theorem orderly_productPages (target : Handle) (right left : List Value) :
    Orderly own env (productPages target right left) m := by
  induction left generalizing m with
  | nil => exact .pure
  | cons page left ih => exact (orderly_pushPairs ..).bind fun _ _ => ih

theorem orderly_bookProduct (lhs rhs : Value) : Orderly own env (bookProduct lhs rhs) m := by
  refine (Orderly.ofExcept).bind fun _ _ => (Orderly.onHeap).bind fun left _ => ?_
  refine (Orderly.ofExcept).bind fun _ _ => (Orderly.onHeap).bind fun right _ => ?_
  refine .ite (orderly_complain _) ((Orderly.allocate _).bind fun _ _ => .withPinned ?_)
  exact (orderly_productPages ..).bind fun _ _ => .pure

theorem orderly_withPages {source journey : Value} {body : List Value → Run α}
    (each : ∀ pages m', Orderly own env (body pages) m') :
    Orderly own env (withPages source journey body) m :=
  (Orderly.ofExcept).bind fun _ _ => (Orderly.onHeap).bind fun _ _ => .withPinned (each ..)

/-- A book is filled while it is pinned. -/
theorem orderly_fill {fill : Handle → Run Unit}
    (fills : ∀ target m', Orderly own env (fill target) m') :
    Orderly own env (do
      let target ← allocate (.book #[])
      withPinned [.book target] do
        fill target
        return Value.book target) m :=
  (Orderly.allocate _).bind fun target _ => .withPinned ((fills target _).bind fun _ _ => .pure)

theorem orderly_ascii (v : Value) : Orderly own env (ascii v) m := by
  unfold ascii
  split
  · exact orderly_newText _
  · exact (Orderly.onHeap).bind fun _ _ => .pure
  · exact orderly_complainOf ..

section Operators

variable (calls : env.Orderly)
include calls

theorem orderly_applyChange (operator : BinaryOperator) (lhs rhs : Value) :
    Orderly own env (applyChange operator lhs rhs) m :=
  orderly_byChange calls (fun _ _ => .pure) fun _ => orderly_cannotApply ..

theorem orderly_cmp (lhs rhs : Value) : Orderly own env (cmp lhs rhs) m := by
  unfold cmp
  split
  · exact (orderly_toNumeral calls rhs).bind fun _ _ => .pure
  · exact (orderly_toText calls rhs).bind fun _ _ => (Orderly.onHeap).bind fun _ _ => .pure
  · exact (orderly_applyChange calls ..).bind fun _ _ => orderly_toNumeral calls _
  · exact orderly_cannotApply ..

theorem orderly_not (v : Value) : Orderly own env (not v) m :=
  orderly_byChange calls (fun _ _ => .pure) fun _ =>
    (orderly_toVeracity calls v).bind fun _ _ => .pure

theorem orderly_neg (v : Value) : Orderly own env (neg v) m := by
  unfold neg
  split
  · exact .pure
  · exact orderly_byChange calls (fun _ _ => .pure) fun _ => orderly_complainOf ..

theorem orderly_selectPages (journey : Value) (target : Handle) (pages : List Value) :
    Orderly own env (selectPages journey target pages) m := by
  induction pages generalizing m with
  | nil => exact .pure
  | cons page pages ih =>
    refine (Orderly.call calls _ _).bind fun keep _ => ?_
    refine (orderly_toVeracity calls keep).bind fun kept _ => ?_
    exact .ite ((orderly_editBook ..).bind fun _ _ => ih) ih

theorem orderly_mapPages (journey : Value) (target : Handle) (pages : List Value) :
    Orderly own env (mapPages journey target pages) m := by
  induction pages generalizing m with
  | nil => exact .pure
  | cons page pages ih =>
    exact (Orderly.call calls _ _).bind fun _ _ => (orderly_editBook ..).bind fun _ _ => ih

theorem orderly_reducePages (journey accumulator : Value) (pages : List Value) :
    Orderly own env (reducePages journey accumulator pages) m := by
  induction pages generalizing accumulator m with
  | nil => exact .pure
  | cons page pages ih => exact (Orderly.withPinned (.call calls _ _)).bind fun next _ => ih next

theorem orderly_bookSelect (source journey : Value) :
    Orderly own env (bookSelect source journey) m :=
  orderly_withPages fun _ _ => orderly_fill fun _ _ => orderly_selectPages calls ..

theorem orderly_bookMap (source journey : Value) : Orderly own env (bookMap source journey) m :=
  orderly_withPages fun _ _ => orderly_fill fun _ _ => orderly_mapPages calls ..

theorem orderly_bookReduce (source journey : Value) :
    Orderly own env (bookReduce source journey) m := by
  refine orderly_withPages fun pages m₁ => ?_
  cases pages with
  | nil => exact .pure
  | cons first rest => exact orderly_reducePages calls ..

theorem orderly_bookJoin (source separator : Value) :
    Orderly own env (bookJoin source separator) m :=
  (Orderly.ofExcept).bind fun _ _ => (Orderly.onHeap).bind fun _ _ =>
    (orderly_withPages fun _ _ => .mapM fun page _ => orderly_toText calls page).bind fun _ _ =>
      orderly_newText _

theorem orderly_add (lhs rhs : Value) : Orderly own env (add lhs rhs) m := by
  unfold add
  split
  · exact (orderly_toText calls lhs).bind fun _ _ =>
      (Orderly.onHeap).bind fun _ _ => orderly_newText _
  · exact (orderly_toNumeral calls rhs).bind fun _ _ => .pure
  · exact (orderly_toText calls rhs).bind fun _ _ =>
      (Orderly.onHeap).bind fun _ _ => orderly_newText _
  · exact orderly_bookSelect calls ..
  · refine (Orderly.withPinned (orderly_toBook calls rhs)).bind fun _ _ => ?_
    exact (Orderly.onHeap).bind fun _ _ => (Orderly.ofExcept).bind fun _ _ =>
      (Orderly.onHeap).bind fun _ _ => .withPinned (orderly_newBook _)
  · exact orderly_applyChange calls ..

theorem orderly_sub (lhs rhs : Value) : Orderly own env (sub lhs rhs) m := by
  unfold sub
  split
  · exact (orderly_toNumeral calls rhs).bind fun _ _ => .pure
  · exact orderly_applyChange calls ..

theorem orderly_mul (lhs rhs : Value) : Orderly own env (mul lhs rhs) m := by
  unfold mul
  split
  · exact (orderly_toNumeral calls rhs).bind fun _ _ => .pure
  · refine (orderly_toNumeral calls rhs).bind fun _ _ => (Orderly.onHeap).bind fun _ _ => ?_
    split
    · exact orderly_newText _
    · exact orderly_complain _
  · split
    · refine (Orderly.onHeap).bind fun _ _ => ?_
      split
      · exact orderly_newBook _
      · exact orderly_complain _
    · exact orderly_bookJoin calls ..
    · exact orderly_bookProduct ..
    · exact orderly_bookMap calls ..
    · exact orderly_cannotApply ..
  · exact orderly_applyChange calls ..

theorem orderly_div (lhs rhs : Value) : Orderly own env (div lhs rhs) m := by
  unfold div
  split
  · exact (orderly_toNumeral calls rhs).bind fun _ _ => .ite (orderly_complain _) .pure
  · exact orderly_applyChange calls ..

theorem orderly_rem (lhs rhs : Value) : Orderly own env (rem lhs rhs) m := by
  unfold rem
  split
  · exact (orderly_toNumeral calls rhs).bind fun _ _ => .ite (orderly_complain _) .pure
  · exact orderly_bookReduce calls ..
  · exact orderly_applyChange calls ..

theorem orderly_pow (lhs rhs : Value) : Orderly own env (pow lhs rhs) m := by
  unfold pow
  split
  · exact (orderly_toNumeral calls rhs).bind fun _ _ => .pure
  · exact orderly_applyChange calls ..

theorem orderly_index (container key : Value) : Orderly own env (index container key) m := by
  unfold index
  split
  · refine (orderly_toNumeral calls key).bind fun _ _ => .ite (orderly_complain _) ?_
    refine (Orderly.onHeap).bind fun _ _ => .ite .pure ?_
    split
    · exact orderly_newText _
    · exact .pure
  · refine (orderly_toNumeral calls key).bind fun _ _ => (Orderly.onHeap).bind fun _ _ => ?_
    exact (orderly_pagePosition ..).bind fun _ _ => (Orderly.onHeap).bind fun _ _ => .pure
  · exact (orderly_codexLookup calls ..).bind fun _ _ => .pure
  · exact orderly_byChange calls (fun _ _ => .pure) fun _ => orderly_complainOf ..

theorem orderly_indexAssign (container key new : Value) :
    Orderly own env (indexAssign container key new) m := by
  unfold indexAssign
  split
  · refine (orderly_toNumeral calls key).bind fun _ _ => (Orderly.onHeap).bind fun _ _ => ?_
    exact (orderly_pagePosition ..).bind fun _ _ => (orderly_growBook ..).bind fun _ _ =>
      orderly_editBook ..
  · exact orderly_codexInsert calls ..
  · exact orderly_byChange calls (fun _ _ => .pure) fun _ => orderly_complainOf ..

theorem orderly_insertPage (container key new : Value) :
    Orderly own env (insertPage container key new) m := by
  unfold insertPage
  split
  · refine (orderly_toNumeral calls key).bind fun _ _ => (Orderly.onHeap).bind fun _ _ => ?_
    exact (orderly_pagePosition ..).bind fun _ _ => (orderly_growBook ..).bind fun _ _ =>
      orderly_editBook ..
  · exact orderly_complain _

theorem orderly_delete (container key : Value) : Orderly own env (delete container key) m := by
  unfold delete
  split
  · refine (orderly_toNumeral calls key).bind fun _ _ => (Orderly.onHeap).bind fun _ _ => ?_
    exact (orderly_pagePosition ..).bind fun _ _ => (Orderly.onHeap).bind fun _ _ =>
      (orderly_editBook ..).bind fun _ _ => .pure
  · exact (orderly_codexRemove calls ..).bind fun _ _ => .pure
  · exact orderly_complain _

theorem orderly_substr (source start count : Value) :
    Orderly own env (substr source start count) m := by
  refine (orderly_toText calls source).bind fun _ _ => ?_
  refine (orderly_toNumeral calls start).bind fun _ _ => .ite (orderly_complain _) ?_
  exact (orderly_toNumeral calls count).bind fun _ _ => orderly_newText _

end Operators

section Matching

variable (calls : env.Orderly)
include calls

theorem orderly_matchesWithin (room : Nat) (visiting : List Handle) (pattern candidate : Value) :
    Orderly own env (matchesWithin room visiting pattern candidate) m := by
  induction room generalizing visiting pattern m with
  | zero => exact .fail trivial
  | succ room ih =>
    have called : ∀ {m'}, Orderly own env (do toVeracity (← call pattern [candidate])) m' :=
      (Orderly.call calls _ _).bind fun _ _ => orderly_toVeracity calls _
    cases pattern <;> unfold matchesWithin
    case form =>
      dsimp only
      split
      · exact (Orderly.onHeap).bind fun _ _ => .onHeap
      · exact .pure
    case journey => exact called
    case text =>
      refine (Orderly.onHeap).bind fun _ _ => ?_
      split
      · exact .ite .pure (orderly_eql calls ..)
      · exact orderly_eql calls ..
    case book =>
      refine .ite .pure ((Orderly.onHeap).bind fun _ _ => .withPinned ?_)
      exact .anyM fun page _ => ih _ page
    case other =>
      refine (Orderly.onHeap).bind fun object m₁ => ?_
      cases object with
      | both lhs rhs =>
        exact (ih visiting lhs).bind fun _ _ => .ite (ih visiting rhs) .pure
      | either lhs rhs =>
        exact (ih visiting lhs).bind fun _ _ => .ite .pure (ih visiting rhs)
      | opposite inner => exact (ih visiting inner).bind fun _ _ => .pure
      | host journey => exact called
      | scroll scroll => exact .pure
    case ni | veracity | numeral => exact orderly_eql calls ..
    case imitation | codex => exact orderly_complainOf ..

theorem orderly_fits (pattern candidate : Value) : Orderly own env (fits pattern candidate) m :=
  .get (.read (orderly_matchesWithin calls ..))

theorem orderly_checkGuard (guard : Option Value) (new : Value) (owner field : String) :
    Orderly own env (checkGuard guard new owner field) m := by
  cases guard with
  | none => exact .pure
  | some guard =>
    exact (Orderly.withPinned (orderly_fits calls guard new)).bind fun _ _ =>
      .ite .pure (orderly_complainOf ..)

end Matching

section Attributes

theorem orderly_scrollAttribute (h : Handle) (name : String) :
    Orderly own env (scrollAttribute? h name) m := by
  refine (Orderly.onHeap).bind fun object _ => ?_
  cases object with
  | scroll scroll =>
    dsimp only
    split
    · exact (orderly_newText _).bind fun _ _ => .pure
    · exact (orderly_newText _).bind fun _ _ => .pure
    · split
      · exact (Orderly.allocate _).bind fun _ _ => .pure
      · exact .pure
  | _ => exact .pure

variable (calls : env.Orderly)
include calls

theorem orderly_attribute (v : Value) (name : String) : Orderly own env (attribute? v name) m := by
  refine .ite ((orderly_genusOf v).bind fun _ _ => .pure) ?_
  refine .ite ((orderly_length calls v).bind fun _ _ => .pure) ?_
  cases v <;> dsimp only
  case form => exact .onHeap
  case imitation =>
    refine (Orderly.onHeap).bind fun _ _ => (Orderly.onHeap).bind fun change _ => ?_
    cases change with
    | some change => exact .pure
    | none =>
      refine (Orderly.onHeap).bind fun _ _ => ?_
      split
      · exact .pure
      · exact (Orderly.onHeap).bind fun _ _ => .pure
  case book | text =>
    exact .ite ((orderly_index calls ..).bind fun _ _ => .pure)
      (.ite ((orderly_index calls ..).bind fun _ _ => .pure) .pure)
  case journey => exact .ite ((Orderly.onHeap).bind fun _ _ => .pure) .pure
  case other => exact orderly_scrollAttribute ..
  all_goals exact .pure

theorem orderly_setAttribute (v : Value) (name : String) (new : Value) :
    Orderly own env (setAttribute v name new) m := by
  cases v <;> unfold setAttribute <;> dsimp only
  case form =>
    refine (Orderly.onHeap).bind fun _ _ => ?_
    split
    · exact .pure
    · exact (orderly_checkGuard calls ..).bind fun _ _ =>
        (orderly_editForm ..).bind fun _ _ => .pure
  case imitation =>
    refine (Orderly.onHeap).bind fun _ _ => (Orderly.onHeap).bind fun _ _ => ?_
    split
    · exact .pure
    · exact (orderly_checkGuard calls ..).bind fun _ _ =>
        (orderly_editImitation ..).bind fun _ _ => .pure
  case book =>
    exact .ite ((orderly_indexAssign calls ..).bind fun _ _ => .pure)
      (.ite ((orderly_indexAssign calls ..).bind fun _ _ => .pure) .pure)
  all_goals exact .pure

end Attributes

section Scrolls

theorem orderly_openScroll (filename mode : String) :
    Orderly own env (openScroll filename mode) m := by
  refine (Orderly.exchange _).bind fun answer _ => ?_
  split
  · exact (Orderly.allocate _).bind fun _ _ => .pure
  · exact orderly_report ..

theorem orderly_onScroll (v : Value) (what : String)
    (action : Scroll → Platform → Exchange (α × Scroll)) :
    Orderly own env (onScroll v what action) m := by
  unfold onScroll
  split
  · refine (Orderly.onHeap).bind fun object _ => ?_
    cases object with
    | scroll scroll =>
      refine (Orderly.exchange _).bind fun answer _ => ?_
      split
      · exact (orderly_update ..).bind fun _ _ => .pure
      · exact orderly_report ..
    | _ => exact orderly_complainOf ..
  · exact orderly_complainOf ..

theorem orderly_readScroll (scroll : Value) (what : String)
    (action : Scroll → Platform → Exchange (String × Scroll)) :
    Orderly own env (do newText (← onScroll scroll what action)) m :=
  (orderly_onScroll ..).bind fun _ _ => orderly_newText _

theorem orderly_scrollRead (scroll amount : Value) :
    Orderly own env (scrollRead scroll amount) m := by
  unfold scrollRead
  split
  · exact orderly_readScroll ..
  · exact .ite (orderly_readScroll ..) (.ite (orderly_complain _) (orderly_readScroll ..))
  · exact (Orderly.onHeap).bind fun _ _ => .ite (orderly_readScroll ..) (orderly_complain _)
  · exact orderly_complainOf ..

theorem orderly_runProbe (probe : Probe) (args : Arguments) :
    Orderly own env (runProbe probe args) m := by
  cases probe
  case first | count => exact .pure
  case collect =>
    have collects : Orderly own env collect m := .still rfl rfl
    exact collects.discard.bind fun _ _ => .pure
  case handlers | frames | live => exact .get .pure
  case fail => exact orderly_complain _

variable (calls : env.Orderly)
include calls

theorem orderly_runScrollMethod (method : ScrollMethod) (args : List Value) :
    Orderly own env (runScrollMethod method args) m := by
  cases method
  case write =>
    exact (orderly_toText calls _).bind fun _ _ => (orderly_onScroll ..).bind fun _ _ => .pure
  case read => exact orderly_scrollRead ..
  case readAll => exact orderly_readScroll ..
  case seek =>
    exact (orderly_toNumeral calls _).bind fun _ _ => (orderly_toNumeral calls _).bind fun _ _ =>
      (orderly_onScroll ..).bind fun _ _ => .pure
  case tell | close => exact (orderly_onScroll ..).bind fun _ _ => .pure

theorem orderly_callHost (journey : HostJourney) (args : Arguments) :
    Orderly own env (callHost journey args) m := by
  obtain ⟨name, arity, routine⟩ := journey
  have runs : ∀ m', Orderly own env (callHost ⟨name, none, routine⟩ args) m' := by
    intro m'
    cases routine with
    | scroll method => exact orderly_runScrollMethod calls ..
    | probe probe => exact orderly_runProbe ..
  cases arity with
  | none => exact runs m
  | some expected => exact .ite ((orderly_complain _).bind fun _ _ => runs _) (runs _)

end Scrolls

end JourneyMachine.Run
