import JourneyMachine.Proofs.Composition.Rules

namespace JourneyMachine

namespace Run

open Host (Exchange Platform)

variable {P : (α : Type) → Run α → Prop} {α β : Type}

section Objects

instance composed_text {h : Handle} : Composed P (text h) := composed_onHeap

instance composed_book {h : Handle} : Composed P (book h) := composed_onHeap

instance composed_codex {h : Handle} : Composed P (codex h) := composed_onHeap

instance composed_form {h : Handle} : Composed P (form h) := composed_onHeap

instance composed_imitation {h : Handle} : Composed P (imitation h) := composed_onHeap

instance composed_journey {h : Handle} : Composed P (journey h) := composed_onHeap

instance composed_other {h : Handle} : Composed P (other h) := composed_onHeap

instance composed_typeName {v : Value} : Composed P (typeName v) := composed_onHeap

instance composed_changeOf {v : Value} {name : String} : Composed P (changeOf? v name) :=
  composed_onHeap

instance composed_newText {content : String} : Composed P (newText content) := composed_bind

instance composed_newBook {pages : Array Value} : Composed P (newBook pages) := composed_bind

end Objects

section Messages

instance composed_throwMessage {form : Handle} {message : String} :
    Composed P (throwMessage form message : Run α) := composed_bind

instance composed_complain {complaint : Complaint} : Composed P (complain complaint : Run α) :=
  .get (fun _ _ => rfl) fun _ => composed_throwMessage

instance composed_report {context : String} {trouble : Trouble} :
    Composed P (report context trouble : Run α) :=
  .get (fun _ _ => rfl) fun _ => composed_throwMessage

instance composed_cannotConvert {v : Value} {target : String} :
    Composed P (cannotConvert v target : Run α) := composed_bind

end Messages

section Conversions

instance composed_callChange {receiver : Value} {name : String} {args : List Value} :
    Composed P (callChange? receiver name args) :=
  .option inferInstance (fun _ => composed_bind) composed_pure

instance composed_convertBy {v : Value} {change : String} {expected : Genus} :
    Composed P (convertBy? v change expected) :=
  .option inferInstance (fun _ => composed_ite) composed_pure

instance composed_textWithin {room : Nat} {path : List Handle} {v : Value} :
    Composed P (textWithin room path v) := by
  induction room generalizing path v with
  | zero =>
    cases v <;> unfold textWithin
    case imitation => exact .option inferInstance (fun _ => composed_bind) inferInstance
    all_goals infer_instance
  | succ room ih =>
    have parts : ∀ {path} (pages : List Value), Composed P (pages.mapM (textWithin room path)) :=
      fun pages => .mapM pages fun _ => ih
    cases v <;> unfold textWithin
    case imitation => exact .option inferInstance (fun _ => composed_bind) inferInstance
    case codex h =>
      have entries : ∀ entries : List (Value × Value), Composed P (entries.mapM fun (k, v) => do
          let key ← textWithin room (h :: path) k
          let value ← textWithin room (h :: path) v
          return s!"{key}: {value}") := fun entries => .mapM entries fun _ => composed_bind
      infer_instance
    all_goals infer_instance

instance composed_toText {v : Value} : Composed P (toText v) :=
  .get (fun _ _ => rfl) fun _ => composed_textWithin

instance composed_toTextValue {v : Value} : Composed P (toTextValue v) := by
  unfold toTextValue
  split <;> infer_instance

instance composed_toNumeral {v : Value} : Composed P (toNumeral v) := by
  unfold toNumeral
  cases v
  case imitation => exact .option inferInstance (fun _ => composed_ofExcept) inferInstance
  all_goals infer_instance

instance composed_toVeracity {v : Value} : Composed P (toVeracity v) := by
  unfold toVeracity
  cases v
  case imitation => exact .option inferInstance (fun _ => composed_pure) inferInstance
  all_goals infer_instance

instance composed_length {v : Value} : Composed P (length v) := by
  unfold length
  cases v
  case imitation => exact .option inferInstance (fun _ => composed_ofExcept) inferInstance
  all_goals infer_instance

instance composed_genusOf {v : Value} : Composed P (genusOf v) := by
  unfold genusOf
  cases v
  case other => exact .get (fun _ _ => rfl) fun _ => composed_newText
  all_goals infer_instance

end Conversions

section Equality

variable {equal : Value → Value → Run Bool} [equals : ∀ a b, Composed P (equal a b)]

instance composed_findKey {key : Value} {position : Nat} {entries : List (Value × Value)} :
    Composed P (findKey? equal key position entries) := by
  induction entries generalizing position with
  | nil => exact composed_pure
  | cons entry rest ih =>
    unfold findKey?
    infer_instance

instance composed_searchCodex {h : Handle} {key : Value} : Composed P (searchCodex equal h key) :=
  composed_bind

instance composed_equalPages {pages : List (Value × Value)} :
    Composed P (equalPages equal pages) := by
  induction pages with
  | nil => exact composed_pure
  | cons pair rest ih =>
    unfold equalPages
    infer_instance

instance composed_equalEntries {lookup : Value → Run (Option (Nat × Value))}
    [finds : ∀ key, Composed P (lookup key)] {entries : List (Value × Value)} :
    Composed P (equalEntries equal lookup entries) := by
  induction entries with
  | nil => exact composed_pure
  | cons entry rest ih => exact .option inferInstance (fun _ => composed_bind) composed_pure

omit equals

instance composed_eqlWithin {room : Nat} {comparing : List (Handle × Handle)} {lhs rhs : Value} :
    Composed P (eqlWithin room comparing lhs rhs) := by
  induction room generalizing comparing lhs rhs with
  | zero => exact composed_fail
  | succ room ih =>
    unfold eqlWithin
    split
    case h_4 => exact .option inferInstance (fun _ => inferInstance) composed_pure
    all_goals infer_instance

instance composed_eql {lhs rhs : Value} : Composed P (eql lhs rhs) :=
  .get (fun _ _ => rfl) fun _ => composed_bind

end Equality

section Codices

instance composed_codexPosition {h : Handle} {key : Value} : Composed P (codexPosition? h key) :=
  composed_searchCodex

instance composed_codexLookup {h : Handle} {key : Value} : Composed P (codexLookup? h key) :=
  composed_bind

instance composed_editEntry {h : Handle} {position : Nat}
    {f : List (Value × Value) → List (Value × Value)} : Composed P (editEntry h position f) :=
  composed_bind

instance composed_removeEntry {h : Handle} {position : Nat} :
    Composed P (removeEntry h position) := by
  have edits : Composed P (update h fun
      | .codex entries => .codex (entries.eraseIdx position)
      | object => object) := .update (fun _ => rfl) (fun _ => rfl) fun g => ⟨g, rfl, rfl⟩
  have notes : Composed P (modify fun m => { m with removals := (h, position) :: m.removals }) :=
    .modify (fun _ _ => rfl) fun _ => ⟨rfl, rfl, rfl, rfl⟩
  exact composed_codex.bind fun _ => .ite (edits.bind fun _ => notes) composed_fail

instance composed_codexInsert {h : Handle} {key value : Value} :
    Composed P (codexInsert h key value) :=
  .option inferInstance (fun _ => composed_editEntry) composed_editCodex

instance composed_codexRemove {h : Handle} {key : Value} : Composed P (codexRemove? h key) :=
  .option inferInstance (fun _ => composed_bind) composed_pure

instance composed_codexInsertAll {h : Handle} {entries : List (Value × Value)} :
    Composed P (codexInsertAll h entries) := by
  induction entries with
  | nil => exact composed_pure
  | cons entry rest ih =>
    unfold codexInsertAll
    infer_instance

instance composed_newCodex {entries : List (Value × Value)} : Composed P (newCodex entries) :=
  composed_bind

instance composed_pushPairs {target : Handle} {pairs : List (Value × Value)} :
    Composed P (pushPairs target pairs) := by
  induction pairs with
  | nil => exact composed_pure
  | cons pair rest ih =>
    unfold pushPairs
    infer_instance

instance composed_pushTexts {target : Handle} {texts : List String} :
    Composed P (pushTexts target texts) := by
  induction texts with
  | nil => exact composed_pure
  | cons text rest ih =>
    unfold pushTexts
    infer_instance

instance composed_toBook {v : Value} : Composed P (toBook v) := by
  unfold toBook
  cases v
  case imitation => exact .option inferInstance (fun _ => composed_pure) inferInstance
  all_goals infer_instance

instance composed_toCodex {v : Value} : Composed P (toCodex v) := by
  unfold toCodex
  cases v
  case imitation => exact .option inferInstance (fun _ => composed_pure) inferInstance
  all_goals infer_instance

end Codices

section Operators

instance composed_cannotApply {operator : BinaryOperator} {lhs rhs : Value} :
    Composed P (cannotApply operator lhs rhs : Run α) := composed_bind

instance composed_applyChange {operator : BinaryOperator} {lhs rhs : Value} :
    Composed P (applyChange operator lhs rhs) :=
  .option inferInstance (fun _ => composed_pure) composed_cannotApply

instance composed_cmp {lhs rhs : Value} : Composed P (cmp lhs rhs) := by
  unfold cmp
  split <;> infer_instance

instance composed_not {v : Value} : Composed P (not v) :=
  .option inferInstance (fun _ => composed_pure) composed_bind

instance composed_neg {v : Value} : Composed P (neg v) := by
  unfold neg
  split
  · exact composed_pure
  · exact .option inferInstance (fun _ => composed_pure) composed_bind

instance composed_withPages {source journey : Value} {body : List Value → Run α}
    [each : ∀ pages, Composed P (body pages)] : Composed P (withPages source journey body) :=
  composed_bind

instance composed_selectPages {journey : Value} {target : Handle} {pages : List Value} :
    Composed P (selectPages journey target pages) := by
  induction pages with
  | nil => exact composed_pure
  | cons page rest ih =>
    unfold selectPages
    infer_instance

instance composed_mapPages {journey : Value} {target : Handle} {pages : List Value} :
    Composed P (mapPages journey target pages) := by
  induction pages with
  | nil => exact composed_pure
  | cons page rest ih =>
    unfold mapPages
    infer_instance

instance composed_reducePages {journey accumulator : Value} {pages : List Value} :
    Composed P (reducePages journey accumulator pages) := by
  induction pages generalizing accumulator with
  | nil => exact composed_pure
  | cons page rest ih =>
    unfold reducePages
    infer_instance

instance composed_bookSelect {source journey : Value} : Composed P (bookSelect source journey) :=
  composed_withPages

instance composed_bookMap {source journey : Value} : Composed P (bookMap source journey) :=
  composed_withPages

instance composed_bookReduce {source journey : Value} : Composed P (bookReduce source journey) := by
  have each : ∀ pages, Composed P (match pages with
      | [] => return .ni
      | first :: rest => reducePages journey first rest : Run Value) := by
    rintro (_ | ⟨first, rest⟩) <;> infer_instance
  exact composed_withPages

instance composed_bookJoin {source separator : Value} : Composed P (bookJoin source separator) := by
  have parts : ∀ pages : List Value, Composed P (pages.mapM toText) := fun pages =>
    .mapM pages fun _ => composed_toText
  unfold bookJoin
  infer_instance

instance composed_productPages {target : Handle} {right left : List Value} :
    Composed P (productPages target right left) := by
  induction left with
  | nil => exact composed_pure
  | cons page rest ih =>
    unfold productPages
    infer_instance

instance composed_bookProduct {lhs rhs : Value} : Composed P (bookProduct lhs rhs) := by
  unfold bookProduct
  infer_instance

instance composed_add {lhs rhs : Value} : Composed P (add lhs rhs) := by
  unfold add
  split <;> infer_instance

instance composed_sub {lhs rhs : Value} : Composed P (sub lhs rhs) := by
  unfold sub
  split <;> infer_instance

instance composed_mul {lhs rhs : Value} : Composed P (mul lhs rhs) := by
  unfold mul
  split
  · infer_instance
  · refine .bind inferInstance fun _ => .bind inferInstance fun _ => ?_
    split <;> infer_instance
  · split
    · refine .bind inferInstance fun _ => ?_
      split <;> infer_instance
    all_goals infer_instance
  · infer_instance

instance composed_div {lhs rhs : Value} : Composed P (div lhs rhs) := by
  unfold div
  split <;> infer_instance

instance composed_rem {lhs rhs : Value} : Composed P (rem lhs rhs) := by
  unfold rem
  split <;> infer_instance

instance composed_pow {lhs rhs : Value} : Composed P (pow lhs rhs) := by
  unfold pow
  split <;> infer_instance

instance composed_pagePosition {index : Int64} {length : Nat} :
    Composed P (pagePosition index length) := by
  unfold pagePosition
  infer_instance

instance composed_index {container key : Value} : Composed P (index container key) := by
  unfold index
  split
  · refine .bind inferInstance fun _ => .ite inferInstance (.bind inferInstance fun _ => ?_)
    refine .ite inferInstance ?_
    split <;> infer_instance
  · infer_instance
  · infer_instance
  · exact .option inferInstance (fun _ => composed_pure) composed_bind

instance composed_growBook {h : Handle} {length : Nat} : Composed P (growBook h length) :=
  composed_bind

instance composed_indexAssign {container key new : Value} :
    Composed P (indexAssign container key new) := by
  unfold indexAssign
  split
  · infer_instance
  · infer_instance
  · exact .option inferInstance (fun _ => composed_pure) composed_bind

instance composed_insertPage {container key new : Value} :
    Composed P (insertPage container key new) := by
  unfold insertPage
  split <;> infer_instance

instance composed_delete {container key : Value} : Composed P (delete container key) := by
  unfold delete
  split <;> infer_instance

instance composed_substr {source start count : Value} : Composed P (substr source start count) :=
  composed_bind

instance composed_ascii {v : Value} : Composed P (ascii v) := by
  unfold ascii
  split <;> infer_instance

end Operators

section Matching

instance composed_matchesWithin {room : Nat} {visiting : List Handle} {pattern candidate : Value} :
    Composed P (matchesWithin room visiting pattern candidate) := by
  induction room generalizing visiting pattern with
  | zero => exact composed_fail
  | succ room ih =>
    unfold matchesWithin
    split
    · split <;> infer_instance
    · infer_instance
    · refine .bind inferInstance fun _ => ?_
      split <;> infer_instance
    · rename_i h
      have pages : ∀ pages : List Value,
          Composed P (pages.anyM fun page => matchesWithin room (h :: visiting) page candidate) :=
        fun pages => .anyM pages fun _ => ih
      infer_instance
    · refine .bind inferInstance fun o => ?_
      cases o <;> infer_instance
    all_goals infer_instance

instance composed_fits {pattern candidate : Value} : Composed P (fits pattern candidate) :=
  .get (fun _ _ => rfl) fun _ => composed_bind

instance composed_checkGuard {guard : Option Value} {new : Value} {owner field : String} :
    Composed P (checkGuard guard new owner field) := by
  unfold checkGuard
  split <;> infer_instance

end Matching

section Attributes

instance composed_scrollAttribute {h : Handle} {name : String} :
    Composed P (scrollAttribute? h name) := by
  refine .bind inferInstance fun o => ?_
  cases o
  case scroll s =>
    dsimp only
    split
    · infer_instance
    · infer_instance
    · split <;> infer_instance
  all_goals infer_instance

instance composed_attribute {v : Value} {name : String} : Composed P (attribute? v name) := by
  refine .ite inferInstance (.ite inferInstance ?_)
  cases v
  case imitation h =>
    refine .bind inferInstance fun _ => .option inferInstance (fun _ => composed_pure) ?_
    refine .bind inferInstance fun f => ?_
    split <;> infer_instance
  all_goals infer_instance

theorem composed_setAttribute {v new : Value} {name : String}
    (edits : ∀ h, v = .imitation h → ∀ f, Composed P (editImitation h f)) :
    Composed P (setAttribute v name new) := by
  unfold setAttribute
  cases v
  case form h =>
    have stores : ∀ i, Composed P (editForm h (·.setEssence i new)) := fun _ =>
      composed_editForm fun _ => rfl
    refine .bind inferInstance fun f => ?_
    split <;> infer_instance
  case imitation h =>
    have stores := edits h rfl
    refine .bind inferInstance fun i => .bind inferInstance fun f => ?_
    split <;> infer_instance
  all_goals infer_instance

end Attributes

section Scrolls

instance composed_openScroll {filename mode : String} : Composed P (openScroll filename mode) := by
  refine .bind inferInstance fun answer => ?_
  split <;> infer_instance

instance composed_onScroll {v : Value} {what : String}
    {action : Scroll → Platform → Exchange (α × Scroll)} : Composed P (onScroll v what action) := by
  unfold onScroll
  cases v
  case other h =>
    refine .bind inferInstance fun o => ?_
    cases o
    case scroll s =>
      refine .bind inferInstance fun answer => ?_
      split
      · exact .bind (.update (fun _ => rfl) (fun _ => rfl) fun g => ⟨g, rfl, rfl⟩) fun _ =>
          composed_pure
      · infer_instance
    all_goals infer_instance
  all_goals infer_instance

instance composed_scrollWrite {scroll content : Value} : Composed P (scrollWrite scroll content) :=
  composed_bind

instance composed_scrollRead {scroll amount : Value} : Composed P (scrollRead scroll amount) := by
  unfold scrollRead
  split <;> infer_instance

instance composed_scrollSeek {scroll offset whence : Value} :
    Composed P (scrollSeek scroll offset whence) := composed_bind

instance composed_runScrollMethod {method : ScrollMethod} {args : List Value} :
    Composed P (runScrollMethod method args) := by
  unfold runScrollMethod
  cases method <;> infer_instance

instance composed_runProbe {probe : Probe} {args : Arguments} :
    Composed P (runProbe probe args) := by
  unfold runProbe
  cases probe
  case handlers | frames | live => exact .get (fun _ _ => rfl) fun _ => composed_pure
  all_goals infer_instance

instance composed_callHost {journey : HostJourney} {args : Arguments} :
    Composed P (callHost journey args) := by
  obtain ⟨name, arity, routine⟩ := journey
  unfold callHost
  cases arity <;> cases routine <;> infer_instance

end Scrolls

end Run

end JourneyMachine
