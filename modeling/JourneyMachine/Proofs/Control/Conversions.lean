import JourneyMachine.Proofs.Control.Effects

namespace JourneyMachine.Run

variable {α : Type} {own : Nat} {env : Env} {m : Machine}

section Objects

theorem orderly_update (h : Handle) (f : Object → Object) : Orderly own env (update h f) m :=
  .modify rfl

theorem orderly_editBook (h : Handle) (f : Array Value → Array Value) :
    Orderly own env (editBook h f) m :=
  (Orderly.discard .onHeap).bind fun _ _ => orderly_update ..

theorem orderly_editCodex (h : Handle) (f : List (Value × Value) → List (Value × Value)) :
    Orderly own env (editCodex h f) m :=
  (Orderly.discard .onHeap).bind fun _ _ => orderly_update ..

theorem orderly_editForm (h : Handle) (f : Form → Form) : Orderly own env (editForm h f) m :=
  (Orderly.discard .onHeap).bind fun _ _ => orderly_update ..

theorem orderly_editImitation (h : Handle) (f : Imitation → Imitation) :
    Orderly own env (editImitation h f) m :=
  (Orderly.discard .onHeap).bind fun _ _ => orderly_update ..

theorem orderly_newText (content : String) : Orderly own env (newText content) m :=
  (Orderly.allocate _).bind fun _ _ => .pure

theorem orderly_newBook (pages : Array Value) : Orderly own env (newBook pages) m :=
  (Orderly.allocate _).bind fun _ _ => .pure

end Objects

section Messages

theorem orderly_throwMessage (form : Handle) (message : String) :
    Orderly own env (throwMessage form message : Run α) m :=
  (Orderly.allocate _).bind fun _ _ => (Orderly.allocate _).bind fun _ _ => .raise _

theorem orderly_complain (complaint : Complaint) : Orderly own env (complain complaint : Run α) m :=
  .get (orderly_throwMessage ..)

theorem orderly_report (context : String) (trouble : Trouble) :
    Orderly own env (report context trouble : Run α) m :=
  .get (orderly_throwMessage ..)

/-- A message about a value names its type. -/
theorem orderly_complainOf (v : Value) (complaint : String → Complaint) :
    Orderly own env (do complain (complaint (← typeName v)) : Run α) m :=
  (Orderly.onHeap).bind fun _ _ => orderly_complain _

theorem orderly_cannotConvert (v : Value) (target : String) :
    Orderly own env (cannotConvert v target : Run α) m :=
  orderly_complainOf ..

end Messages

section Conversions

variable (calls : env.Orderly)
include calls

theorem orderly_callChange (receiver : Value) (name : String) (args : List Value) :
    Orderly own env (callChange? receiver name args) m := by
  refine (Orderly.onHeap).bind fun change m₁ => ?_
  cases change with
  | none => exact .pure
  | some change => exact (Orderly.call calls _ _).bind fun _ _ => .pure

/-- A change is called where there is one; what is done otherwise is given. -/
theorem orderly_byChange {receiver : Value} {name : String} {args : List Value}
    {next : Option Value → Run α} (found : ∀ v m', Orderly own env (next (some v)) m')
    (missing : ∀ m', Orderly own env (next none) m') :
    Orderly own env (callChange? receiver name args >>= next) m := by
  refine (orderly_callChange calls receiver name args).bind fun result m₁ => ?_
  cases result with
  | none => exact missing m₁
  | some v => exact found v m₁

theorem orderly_convertBy (v : Value) (change : String) (expected : Genus) :
    Orderly own env (convertBy? v change expected) m := by
  refine orderly_byChange calls (fun result m₁ => ?_) fun _ => .pure
  exact .ite .pure (orderly_complainOf ..)

/-- A value is converted by a change where there is one; what is done otherwise is given. -/
theorem orderly_converted {v : Value} {change : String} {expected : Genus}
    {next : Option Value → Run α} (found : ∀ v m', Orderly own env (next (some v)) m')
    (missing : ∀ m', Orderly own env (next none) m') :
    Orderly own env (convertBy? v change expected >>= next) m := by
  refine (orderly_convertBy calls v change expected).bind fun result m₁ => ?_
  cases result with
  | none => exact missing m₁
  | some v => exact found v m₁

theorem orderly_textWithin (room : Nat) (path : List Handle) (v : Value) :
    Orderly own env (textWithin room path v) m := by
  induction room using Nat.strong_induction_on generalizing path v m with
  | _ room ih =>
    cases v <;> unfold textWithin
    case ni | veracity | numeral => exact .pure
    case text => exact .onHeap
    case form | other => exact (Orderly.onHeap).bind fun _ _ => .pure
    case book h =>
      refine .ite .pure ?_
      cases room with
      | zero => exact .fail trivial
      | succ room =>
        have inner : ∀ page m', Orderly own env (textWithin room (h :: path) page) m' :=
          fun _ _ => ih room (Nat.lt_succ_self room) ..
        refine (Orderly.onHeap).bind fun pages _ => ?_
        exact (Orderly.withPinned (.mapM inner)).bind fun _ _ => .pure
    case codex h =>
      refine .ite .pure ?_
      cases room with
      | zero => exact .fail trivial
      | succ room =>
        have inner : ∀ part m', Orderly own env (textWithin room (h :: path) part) m' :=
          fun _ _ => ih room (Nat.lt_succ_self room) ..
        refine (Orderly.onHeap).bind fun entries _ => ?_
        refine (Orderly.withPinned (.mapM fun entry _ => ?_)).bind fun _ _ => .pure
        exact (inner entry.1 _).bind fun _ _ => (inner entry.2 _).bind fun _ _ => .pure
    case imitation =>
      exact orderly_converted calls (fun _ _ => (Orderly.ofExcept).bind fun _ _ => .onHeap)
        fun _ => orderly_cannotConvert ..
    case journey => exact orderly_cannotConvert ..

theorem orderly_toText (v : Value) : Orderly own env (toText v) m :=
  .get (orderly_textWithin calls ..)

theorem orderly_toTextValue (v : Value) : Orderly own env (toTextValue v) m := by
  unfold toTextValue
  split
  · exact .pure
  · exact (orderly_toText calls v).bind fun _ _ => orderly_newText _

theorem orderly_toNumeral (v : Value) : Orderly own env (toNumeral v) m := by
  cases v
  case ni | veracity | numeral => exact .pure
  case text | book | codex => exact (Orderly.onHeap).bind fun _ _ => .pure
  case imitation =>
    exact orderly_converted calls (fun _ _ => .ofExcept) fun _ => orderly_cannotConvert ..
  case form | journey | other => exact orderly_cannotConvert ..

theorem orderly_toVeracity (v : Value) : Orderly own env (toVeracity v) m := by
  cases v
  case ni | veracity | numeral => exact .pure
  case text | book | codex => exact (Orderly.onHeap).bind fun _ _ => .pure
  case imitation =>
    exact orderly_converted calls (fun _ _ => .pure) fun _ => orderly_cannotConvert ..
  case form | journey | other => exact orderly_cannotConvert ..

theorem orderly_length (v : Value) : Orderly own env (length v) m := by
  cases v
  case text | book | codex => exact (Orderly.onHeap).bind fun _ _ => .pure
  case imitation =>
    exact orderly_converted calls (fun _ _ => .ofExcept) fun _ => orderly_complainOf ..
  all_goals exact orderly_complainOf ..

end Conversions

theorem orderly_genusOf (v : Value) : Orderly own env (genusOf v) m := by
  unfold genusOf
  split
  · exact (Orderly.onHeap).bind fun _ _ => .pure
  · exact .get (orderly_newText _)
  · exact orderly_newText _

section Equality

variable {equal : Value → Value → Run Bool} (fair : ∀ a b m', Orderly own env (equal a b) m')
include fair

theorem orderly_findKey (key : Value) (position : Nat) (entries : List (Value × Value)) :
    Orderly own env (findKey? equal key position entries) m := by
  induction entries generalizing position m with
  | nil => exact .pure
  | cons entry entries ih =>
    exact (fair entry.1 key m).bind fun _ _ => .ite .pure (ih (position + 1))

theorem orderly_searchCodex (h : Handle) (key : Value) :
    Orderly own env (searchCodex equal h key) m :=
  (Orderly.onHeap).bind fun _ _ => .withPinned (orderly_findKey fair ..)

theorem orderly_equalPages (pairs : List (Value × Value)) :
    Orderly own env (equalPages equal pairs) m := by
  induction pairs generalizing m with
  | nil => exact .pure
  | cons pair pairs ih =>
    exact (fair pair.1 pair.2 m).bind fun _ _ => .ite ih .pure

theorem orderly_equalEntries {lookup : Value → Run (Option (Nat × Value))}
    (looks : ∀ key m', Orderly own env (lookup key) m') (entries : List (Value × Value)) :
    Orderly own env (equalEntries equal lookup entries) m := by
  induction entries generalizing m with
  | nil => exact .pure
  | cons entry entries ih =>
    refine (looks entry.1 m).bind fun found m₁ => ?_
    cases found with
    | none => exact .pure
    | some place => exact (fair entry.2 place.2 m₁).bind fun _ _ => .ite ih .pure

end Equality

section Codices

theorem orderly_editEntry (h : Handle) (position : Nat)
    (f : List (Value × Value) → List (Value × Value)) :
    Orderly own env (editEntry h position f) m :=
  (Orderly.onHeap).bind fun _ _ => .ite (orderly_editCodex ..) (.fail trivial)

theorem orderly_removeEntry (h : Handle) (position : Nat) :
    Orderly own env (removeEntry h position) m :=
  (Orderly.onHeap).bind fun _ _ => .ite (.modify rfl) (.fail trivial)

theorem orderly_pushPairs (target : Handle) (pairs : List (Value × Value)) :
    Orderly own env (pushPairs target pairs) m := by
  induction pairs generalizing m with
  | nil => exact .pure
  | cons pair pairs ih =>
    exact (orderly_newBook _).bind fun _ _ => (orderly_editBook ..).bind fun _ _ => ih

theorem orderly_pushTexts (target : Handle) (texts : List String) :
    Orderly own env (pushTexts target texts) m := by
  induction texts generalizing m with
  | nil => exact .pure
  | cons content texts ih =>
    exact (orderly_newText _).bind fun _ _ => (orderly_editBook ..).bind fun _ _ => ih

variable (calls : env.Orderly)
include calls

theorem orderly_eqlWithin (room : Nat) (comparing : List (Handle × Handle)) (lhs rhs : Value) :
    Orderly own env (eqlWithin room comparing lhs rhs) m := by
  induction room generalizing own comparing lhs rhs m with
  | zero => exact .fail trivial
  | succ room ih =>
    unfold eqlWithin
    split
    · exact .ite .pure ((Orderly.onHeap).bind fun _ _ => (Orderly.onHeap).bind fun _ _ => .pure)
    · refine .ite .pure ((Orderly.onHeap).bind fun left _ => (Orderly.onHeap).bind fun right _ => ?_)
      exact .ite .pure (.withPinned (orderly_equalPages (fun a b _ => ih _ a b) _))
    · refine .ite .pure ((Orderly.onHeap).bind fun left _ => (Orderly.onHeap).bind fun right _ => ?_)
      refine .ite .pure (.withPinned (orderly_equalEntries (fun a b _ => ih _ a b) ?_ _))
      exact fun key _ => orderly_searchCodex (fun a b _ => ih [] a b) ..
    · exact orderly_byChange calls (fun v _ => orderly_toVeracity calls v) fun _ => .pure
    · exact .pure

theorem orderly_eql (lhs rhs : Value) : Orderly own env (eql lhs rhs) m :=
  .get (.read (orderly_eqlWithin calls ..))

theorem orderly_codexPosition (h : Handle) (key : Value) :
    Orderly own env (codexPosition? h key) m :=
  orderly_searchCodex (fun a b _ => orderly_eql calls a b) h key

theorem orderly_codexLookup (h : Handle) (key : Value) : Orderly own env (codexLookup? h key) m :=
  (orderly_codexPosition calls h key).bind fun _ _ => .pure

theorem orderly_codexInsert (h : Handle) (key value : Value) :
    Orderly own env (codexInsert h key value) m := by
  refine (Orderly.withPinned (orderly_codexPosition calls h key)).bind fun place m₁ => ?_
  cases place with
  | none => exact orderly_editCodex ..
  | some place => exact orderly_editEntry ..

theorem orderly_codexRemove (h : Handle) (key : Value) :
    Orderly own env (codexRemove? h key) m := by
  refine (orderly_codexPosition calls h key).bind fun place m₁ => ?_
  cases place with
  | none => exact .pure
  | some place => exact (orderly_removeEntry ..).bind fun _ _ => .pure

theorem orderly_codexInsertAll (h : Handle) (entries : List (Value × Value)) :
    Orderly own env (codexInsertAll h entries) m := by
  induction entries generalizing m with
  | nil => exact .pure
  | cons entry entries ih => exact (orderly_codexInsert calls ..).bind fun _ _ => ih

theorem orderly_newCodex (entries : List (Value × Value)) : Orderly own env (newCodex entries) m :=
  (Orderly.withPinned (.allocate _)).bind fun _ _ =>
    .withPinned ((orderly_codexInsertAll calls ..).bind fun _ _ => .pure)

theorem orderly_toBook (v : Value) : Orderly own env (toBook v) m := by
  cases v
  case book => exact .pure
  case ni | numeral => exact orderly_newBook _
  case text =>
    exact (Orderly.onHeap).bind fun _ _ => (Orderly.allocate _).bind fun _ _ =>
      .withPinned ((orderly_pushTexts ..).bind fun _ _ => .pure)
  case codex =>
    exact (Orderly.onHeap).bind fun _ _ => (Orderly.allocate _).bind fun _ _ =>
      .withPinned ((orderly_pushPairs ..).bind fun _ _ => .pure)
  case imitation =>
    exact orderly_converted calls (fun _ _ => .pure) fun _ => orderly_cannotConvert ..
  case veracity | form | journey | other => exact orderly_cannotConvert ..

theorem orderly_toCodex (v : Value) : Orderly own env (toCodex v) m := by
  cases v
  case codex => exact .pure
  case ni => exact orderly_newCodex calls []
  case book => exact (Orderly.onHeap).bind fun _ _ => .withPinned (orderly_newCodex calls _)
  case imitation =>
    exact orderly_converted calls (fun _ _ => .pure) fun _ => orderly_cannotConvert ..
  all_goals exact orderly_cannotConvert ..

end Codices

end JourneyMachine.Run
