import JourneyMachine.Proofs.Attributes.Assignment
import JourneyMachine.Proofs.Equality.Termination
import JourneyMachine.Proofs.Rendering.Marks

/-! Rendering in a closed heap. The debug form and the text of a value keep the objects around it on
a path, and give up when as many are around it as there are slots. No path comes to that in a closed
heap, where all that is looked up on the way is there, so both end with what rendering with marks
comes to, the path being what is marked. -/

namespace JourneyMachine

/-- A sense in which computations give results that goes together with doing one after the other. -/
structure Sequential {M : Type → Type} [Monad M] (Gives : {α : Type} → M α → α → Prop) : Prop where
  pure : ∀ {α : Type} (a : α), Gives (Pure.pure a) a
  bind : ∀ {α β : Type} {x : M α} {k : α → M β} {a : α} {b : β}, Gives x a → Gives (k a) b →
    Gives (x >>= k) b

def entryTexts : List String → List String
  | key :: value :: rest => s!"{key}: {value}" :: entryTexts rest
  | _ => []

def fieldTexts : List Matter → List String → List String
  | [], _ => []
  | ⟨name, none⟩ :: fields, texts => (" " ++ name) :: fieldTexts fields texts
  | ⟨name, some _⟩ :: fields, text :: texts => s!" {name} ({text})" :: fieldTexts fields texts
  | _, [] => []

theorem setOf_mem_cons (h : Handle) (path : List Handle) :
    {k | k ∈ h :: path} = insert h {k | k ∈ path} :=
  Set.ext fun _ => List.mem_cons

theorem sequential_except : Sequential (M := Except Fault) fun x a => x = .ok a where
  pure _ := rfl
  bind first next := by
    subst first
    exact next

theorem sequential_run (env : Env) (m : Machine) :
    Sequential (M := Run) fun c a => c env m = .ok a m where
  pure _ := rfl
  bind first next := (Run.bind_ok first).trans next

section Parts

variable {M : Type → Type} [Monad M] [LawfulMonad M] {Gives : {α : Type} → M α → α → Prop}
  {render : Value → M String} {dump : Value → Except Fault String} {style : Style}
  {marks : Set Handle}

theorem Sequential.values (seq : Sequential Gives) {vs : List Value}
    (each : ∀ v ∈ vs, ∃ s, Gives (render v) s ∧ style.Renders marks [v] [s] marks) :
    ∃ texts, Gives (vs.mapM render) texts ∧ style.Renders marks vs texts marks := by
  induction vs with
  | nil => exact ⟨[], seq.pure [], .nil⟩
  | cons v vs ih =>
    obtain ⟨s, first, one⟩ := each v List.mem_cons_self
    obtain ⟨texts, later, all⟩ := ih fun w member => each w (List.mem_cons_of_mem _ member)
    refine ⟨s :: texts, ?_, one.cons all⟩
    rw [List.mapM_cons]
    exact seq.bind first (seq.bind later (seq.pure _))

theorem Sequential.entries (seq : Sequential Gives) {entries : List (Value × Value)}
    (each : ∀ v ∈ entries.flatMap fun (k, v) => [k, v],
      ∃ s, Gives (render v) s ∧ style.Renders marks [v] [s] marks) :
    ∃ texts, Gives (entries.mapM fun (k, v) => do
        let key ← render k
        let value ← render v
        return s!"{key}: {value}") (entryTexts texts) ∧
      style.Renders marks (entries.flatMap fun (k, v) => [k, v]) texts marks := by
  induction entries with
  | nil => exact ⟨[], seq.pure [], .nil⟩
  | cons entry entries ih =>
    obtain ⟨k, v⟩ := entry
    rw [List.flatMap_cons] at each ⊢
    obtain ⟨key, first, one⟩ := each k (by simp)
    obtain ⟨value, second, two⟩ := each v (by simp)
    obtain ⟨texts, later, all⟩ := ih fun w member => each w (List.mem_append_right _ member)
    refine ⟨key :: value :: texts, ?_, one.cons (two.cons all)⟩
    rw [List.mapM_cons]
    exact seq.bind (seq.bind first (seq.bind second (seq.pure _))) (seq.bind later (seq.pure _))

theorem dumpField_texts (fields : List Matter)
    (each : ∀ g ∈ fields.filterMap Matter.guard,
      ∃ s, dump g = .ok s ∧ style.Renders marks [g] [s] marks) :
    ∃ texts, fields.mapM (Heap.dumpField dump) = .ok (fieldTexts fields texts) ∧
      style.Renders marks (fields.filterMap Matter.guard) texts marks := by
  induction fields with
  | nil => exact ⟨[], rfl, .nil⟩
  | cons field fields ih =>
    obtain ⟨name, guard⟩ := field
    cases guard with
    | none =>
      obtain ⟨texts, later, all⟩ := ih each
      refine ⟨texts, ?_, all⟩
      rw [List.mapM_cons, later]
      rfl
    | some g =>
      obtain ⟨s, first, one⟩ := each g List.mem_cons_self
      obtain ⟨texts, later, all⟩ := ih fun w member => each w (List.mem_cons_of_mem _ member)
      have shown : Heap.dumpField dump ⟨name, some g⟩ = .ok s!" {name} ({s})" := by
        simp only [Heap.dumpField, first]
        rfl
      refine ⟨s :: texts, ?_, one.cons all⟩
      rw [List.mapM_cons, shown, later]
      rfl

theorem dumpMatter_texts {values : Array Value} (i : Nat) (fields : List Matter)
    (each : ∀ i, ∃ s, dump (values.getD i .ni) = .ok s ∧
      style.Renders marks [values.getD i .ni] [s] marks) :
    ∃ texts, Heap.dumpMatter dump values i fields =
        .ok (List.zipWith (fun field text => s!"{field.name}={text}") fields texts) ∧
      style.Renders marks (fields.mapIdx fun j _ => values.getD (i + j) .ni) texts marks := by
  induction fields generalizing i with
  | nil => exact ⟨[], rfl, .nil⟩
  | cons field fields ih =>
    obtain ⟨s, first, one⟩ := each i
    obtain ⟨texts, later, all⟩ := ih (i + 1)
    refine ⟨s :: texts, ?_, ?_⟩
    · rw [Heap.dumpMatter, first, later]
      rfl
    · rw [List.mapIdx_cons]
      refine one.cons ?_
      simpa only [Nat.add_assoc, Nat.add_comm 1] using all

end Parts

namespace Heap

variable {heap : Heap} {path : List Handle} {v w : Value} {h : Handle} {room : Nat}

def formContent (f : Form) : Content where
  parts := f.matter.filterMap Matter.guard
  whole texts := s!"Form({f.name}:" ++
    (if f.matter = [] then " <none>" else ",".intercalate (fieldTexts f.matter texts)) ++ ")"

/-- The fields of a form with the values that an imitation has for them, or ni where it has none. -/
def imitationContent (f : Form) (values : Array Value) : Content where
  parts := f.matter.mapIdx fun i _ => values.getD i .ni
  whole texts := s!"{f.name}(" ++ (if f.matter = [] then "<none>" else ", ".intercalate
    (List.zipWith (fun field text => s!"{field.name}={text}") f.matter texts)) ++ ")"

def debugContent? (heap : Heap) : Value → Option Content
  | .ni => some (.word "Ni()")
  | .veracity truth => some (.word (if truth then "Veracity(yea)" else "Veracity(nay)"))
  | .numeral n => some (.word s!"Numeral({Numeral.arabic n})")
  | .text h => (heap.text h).toOption.map fun content =>
    .word ("Text(" ++ Text.quote content ++ ")")
  | .journey h => (heap.journey h).toOption.map fun j =>
    .word s!"Journey({j.name}, {j.patterns.length} patterns)"
  | .other h => (heap.other h).toOption.map fun o => .word <|
    match o with
    | .scroll s => s!"Scroll({s.filename}, mode={s.mode})"
    | o => s!"Other({o.describe})"
  | .form h => (heap.form h).toOption.map formContent
  | .imitation h => (heap.imitation h).toOption.bind fun i =>
    (heap.form i.form).toOption.map (imitationContent · i.matter)
  | .book h => (heap.book h).toOption.map fun pages =>
    ⟨pages.toList, fun texts => "Book([" ++ ", ".intercalate texts ++ "])"⟩
  | .codex h => (heap.codex h).toOption.map fun entries =>
    ⟨entries.flatMap fun (k, v) => [k, v],
      fun texts => "Codex(\x7b" ++ ", ".intercalate (entryTexts texts) ++ "\x7d)"⟩

/-- The debug form marks every object that it shows. -/
def debugStyle (heap : Heap) : Style where
  mark? v := v.handle?.map (·, "...")
  content? := heap.debugContent?

/-- What the text of a value shows of it. Imitations are converted by a program, and journeys not at
all. -/
def textContent? (heap : Heap) : Value → Option Content
  | .ni => some (.word "ni")
  | .veracity truth => some (.word (if truth then "yea" else "nay"))
  | .numeral n => some (.word (Numeral.arabic n))
  | .text h => (heap.text h).toOption.map .word
  | .form h => (heap.form h).toOption.map fun f => .word f.name
  | .other h => (heap.other h).toOption.map fun o => .word o.describe
  | .book h => (heap.book h).toOption.map fun pages =>
    ⟨pages.toList, fun texts => "[" ++ ", ".intercalate texts ++ "]"⟩
  | .codex h => (heap.codex h).toOption.map fun entries =>
    ⟨entries.flatMap fun (k, v) => [k, v],
      fun texts => "\x7b" ++ ", ".intercalate (entryTexts texts) ++ "\x7d"⟩
  | .imitation _ | .journey _ => none

/-- The text of a value marks the books and codices that it shows. -/
def textStyle (heap : Heap) : Style where
  mark?
    | .book h => some (h, "[...]")
    | .codex h => some (h, "\x7b...\x7d")
    | _ => none
  content? := heap.textContent?

section Debug

theorem dumpWithin_inline (inline : v.handle? = none) {marks : Set Handle} :
    ∃ s, heap.dumpWithin room path v = .ok s ∧ heap.debugStyle.Renders marks [v] [s] marks := by
  have plain : heap.debugStyle.mark? v = none := by simp [debugStyle, inline]
  obtain ⟨s, shown, content⟩ : ∃ s, heap.dumpWithin room path v = .ok s ∧
      heap.debugContent? v = some (.word s) := by
    cases v <;> cases inline <;> cases room <;> exact ⟨_, rfl, rfl⟩
  exact ⟨s, shown, .content plain content .nil⟩

theorem dumpWithin_marked (found : v.handle? = some h) (marked : h ∈ path) :
    heap.dumpWithin room path v = .ok "..." := by
  cases v <;> cases found <;> cases room <;> simp [dumpWithin, marked]

/-- An object off the path is shown in full, from what its parts come to further down. -/
theorem dumpWithin_fresh (closed : heap.Closed) (refers : heap.Refers v)
    (found : v.handle? = some h) (fresh : h ∉ path) {style : Style} {marks : Set Handle}
    (deeper : ∀ w, heap.Refers w → ∃ s, heap.dumpWithin room (h :: path) w = .ok s ∧
      style.Renders marks [w] [s] marks) :
    ∃ c texts, heap.debugContent? v = some c ∧ style.Renders marks c.parts texts marks ∧
      heap.dumpWithin (room + 1) path v = .ok (c.whole texts) := by
  obtain ⟨o, used, genus⟩ := refers h found
  have links : ∀ w ∈ o.links, heap.Refers w := closed h o used
  have seq := sequential_except
  -- Only the pairs of a value and an object of its genus are left.
  cases v <;> cases found <;> cases o <;> cases genus
  case text content =>
    have read : heap.text h = .ok content := read_some used rfl
    refine ⟨_, [], by rw [debugContent?, read]; rfl, .nil, ?_⟩
    simp only [dumpWithin, fresh, if_false]
    exact seq.bind read rfl
  case journey j =>
    have read : heap.journey h = .ok j := read_some used rfl
    refine ⟨_, [], by rw [debugContent?, read]; rfl, .nil, ?_⟩
    simp only [dumpWithin, fresh, if_false]
    exact seq.bind read rfl
  case other o =>
    have read : heap.other h = .ok o := read_some used rfl
    refine ⟨_, [], by rw [debugContent?, read]; rfl, .nil, ?_⟩
    simp only [dumpWithin, fresh, if_false]
    exact seq.bind read (by cases o <;> rfl)
  case form f =>
    have read : heap.form h = .ok f := read_some used rfl
    obtain ⟨texts, shown, all⟩ := dumpField_texts f.matter fun g member => by
      obtain ⟨field, there, same⟩ := List.mem_filterMap.mp member
      refine deeper g (links g ?_)
      simp only [Object.links, Form.links, List.mem_append, List.mem_flatMap, Option.mem_toList]
      exact .inl (.inl (.inl (.inl (.inr ⟨field, there, same⟩))))
    refine ⟨_, texts, by rw [debugContent?, read]; rfl, all, ?_⟩
    simp only [dumpWithin, fresh, if_false]
    exact seq.bind read (seq.bind shown rfl)
  case imitation i =>
    have read : heap.imitation h = .ok i := read_some used rfl
    obtain ⟨o, there, same⟩ := closed.own used
    cases o with
    | form f =>
      have own : heap.form i.form = .ok f := read_some there rfl
      obtain ⟨texts, shown, all⟩ := dumpMatter_texts 0 f.matter fun j =>
        deeper _ (refers_getD (fun w member => closed.matter used member) j)
      simp only [Nat.zero_add] at all
      have content : heap.debugContent? (.imitation h) =
          (heap.form i.form).toOption.map (imitationContent · i.matter) := by
        rw [debugContent?, read]
        rfl
      refine ⟨_, texts, by rw [content, own]; rfl, all, ?_⟩
      simp only [dumpWithin, fresh, if_false]
      exact seq.bind read (seq.bind own (seq.bind shown rfl))
    | _ => cases same
  case book pages =>
    have read : heap.book h = .ok pages := read_some used rfl
    obtain ⟨texts, shown, all⟩ := seq.values fun w member => deeper w (links w member)
    refine ⟨_, texts, by rw [debugContent?, read]; rfl, all, ?_⟩
    simp only [dumpWithin, fresh, if_false]
    exact seq.bind read (seq.bind shown rfl)
  case codex entries =>
    have read : heap.codex h = .ok entries := read_some used rfl
    obtain ⟨texts, shown, all⟩ := seq.entries fun w member => deeper w (links w member)
    refine ⟨_, texts, by rw [debugContent?, read]; rfl, all, ?_⟩
    simp only [dumpWithin, fresh, if_false]
    exact seq.bind read (seq.bind shown rfl)

/-- The debug form of what refers in a closed heap, under as many marks as there is room for. -/
theorem dumpWithin_total (closed : heap.Closed) (around : Around heap.capacity room path)
    (refers : heap.Refers v) : ∃ s, heap.dumpWithin room path v = .ok s ∧
      heap.debugStyle.Renders {k | k ∈ path} [v] [s] {k | k ∈ path} := by
  induction room using Nat.strong_induction_on generalizing path v with
  | _ room ih =>
    cases found : v.handle? with
    | none => exact dumpWithin_inline found
    | some h =>
      have mark : heap.debugStyle.mark? v = some (h, "...") := by simp [debugStyle, found]
      have inside := (refers h found).lt_capacity
      by_cases marked : h ∈ path
      · exact ⟨_, dumpWithin_marked found marked, .abbreviated mark marked⟩
      · cases room with
        | zero => exact (around.room_left marked inside).elim
        | succ room =>
          -- An object off the path is in a slot of its own, so there is room for what is inside.
          obtain ⟨c, texts, content, all, shown⟩ := dumpWithin_fresh closed refers found marked
            fun w refer => ih room (Nat.lt_succ_self room) (around.cons marked inside) refer
          rw [setOf_mem_cons] at all
          exact ⟨_, shown, .full mark marked content all⟩

end Debug

/-- No program is needed for the text of a value: no imitation and no journey is inside it. -/
def Legible (heap : Heap) (v : Value) : Prop :=
  ∀ w, heap.Contains v w → w.genus ≠ .imitation ∧ w.genus ≠ .journey

theorem Legible.part (legible : heap.Legible v) (part : heap.Part v w) : heap.Legible w :=
  fun _ inside => legible _ (.head part inside)

end Heap

namespace Run

variable {env : Env} {m : Machine} {path : List Handle} {v : Value} {h : Handle} {room : Nat}
  {short : String}

section Texts

theorem textWithin_object (refers : m.heap.Refers v) (legible : m.heap.Legible v)
    (plain : m.heap.textStyle.mark? v = none) (found : v.handle? = some h) :
    ∃ s, textWithin room path v env m = .ok s m ∧ m.heap.textContent? v = some (.word s) := by
  have seq := sequential_run env m
  obtain ⟨o, used, genus⟩ := refers h found
  cases v <;> cases found <;> cases o <;> cases genus
  case text content =>
    have read : m.heap.text h = .ok content := Heap.read_some used rfl
    refine ⟨content, ?_, by rw [Heap.textContent?, read]; rfl⟩
    cases room <;> exact read_text used
  case form f =>
    have read : m.heap.form h = .ok f := Heap.read_some used rfl
    refine ⟨f.name, ?_, by rw [Heap.textContent?, read]; rfl⟩
    cases room <;> exact seq.bind (read_form used) rfl
  case other o =>
    have read : m.heap.other h = .ok o := Heap.read_some used rfl
    refine ⟨o.describe, ?_, by rw [Heap.textContent?, read]; rfl⟩
    cases room <;> exact seq.bind (read_other used) rfl
  case book | codex => cases plain
  case imitation => exact absurd rfl (legible _ .refl).1
  case journey => exact absurd rfl (legible _ .refl).2

theorem textWithin_word (refers : m.heap.Refers v) (legible : m.heap.Legible v)
    (plain : m.heap.textStyle.mark? v = none) {marks : Set Handle} :
    ∃ s, textWithin room path v env m = .ok s m ∧ m.heap.textStyle.Renders marks [v] [s] marks := by
  obtain ⟨s, shown, content⟩ : ∃ s, textWithin room path v env m = .ok s m ∧
      m.heap.textContent? v = some (.word s) := by
    cases found : v.handle? with
    | none => cases v <;> cases found <;> cases room <;> exact ⟨_, rfl, rfl⟩
    | some h => exact textWithin_object refers legible plain found
  exact ⟨s, shown, .content plain content .nil⟩

theorem textWithin_marked (mark : m.heap.textStyle.mark? v = some (h, short)) (marked : h ∈ path) :
    textWithin room path v env m = .ok short m := by
  cases v <;> cases mark <;> cases room <;> simp only [textWithin, marked, if_true] <;> rfl

/-- A container off the path is shown in full, from what its parts come to further down, while they
are pinned. -/
theorem textWithin_fresh (closed : m.heap.Closed) (refers : m.heap.Refers v)
    (legible : m.heap.Legible v) (mark : m.heap.textStyle.mark? v = some (h, short))
    (fresh : h ∉ path) {style : Style} {marks : Set Handle}
    (deeper : ∀ values w, m.heap.Refers w → m.heap.Legible w → ∃ s,
      textWithin room (h :: path) w env (m.pin values) = .ok s (m.pin values) ∧
      style.Renders marks [w] [s] marks) :
    ∃ c texts, m.heap.textContent? v = some c ∧ style.Renders marks c.parts texts marks ∧
      textWithin (room + 1) path v env m = .ok (c.whole texts) m := by
  have seq := sequential_run env
  obtain ⟨o, used, genus⟩ := refers h (by cases v <;> cases mark <;> rfl)
  cases v <;> cases mark <;> cases o <;> cases genus
  case book pages =>
    have read : m.heap.book h = .ok pages := Heap.read_some used rfl
    obtain ⟨texts, shown, all⟩ := (seq (m.pin pages.toList)).values fun w member =>
      deeper _ w (closed h _ used w member) (legible.part (.page used member))
    refine ⟨_, texts, by rw [Heap.textContent?, read]; rfl, all, ?_⟩
    simp only [textWithin, fresh, if_false]
    exact (seq m).bind (read_book used) ((seq m).bind (withPinned_ok shown) rfl)
  case codex entries =>
    have read : m.heap.codex h = .ok entries := Heap.read_some used rfl
    have inside : ∀ w ∈ entries.flatMap fun (k, v) => [k, v], m.heap.Part (.codex h) w := by
      intro w member
      obtain ⟨e, there, one⟩ := List.mem_flatMap.mp member
      rcases List.mem_cons.mp one with rfl | last
      · exact .key used there
      · rw [List.mem_singleton.mp last]
        exact .value used there
    obtain ⟨texts, shown, all⟩ := (seq (m.pin (entries.flatMap fun (k, v) => [k, v]))).entries
      fun w member => deeper _ w (closed h _ used w member) (legible.part (inside w member))
    refine ⟨_, texts, by rw [Heap.textContent?, read]; rfl, all, ?_⟩
    simp only [textWithin, fresh, if_false]
    exact (seq m).bind (read_codex used) ((seq m).bind (withPinned_ok shown) rfl)

theorem textWithin_total (env : Env) (closed : m.heap.Closed)
    (around : Heap.Around m.heap.capacity room path) (refers : m.heap.Refers v)
    (legible : m.heap.Legible v) :
    ∃ s, textWithin room path v env m = .ok s m ∧
      m.heap.textStyle.Renders {k | k ∈ path} [v] [s] {k | k ∈ path} := by
  induction room using Nat.strong_induction_on generalizing path v m with
  | _ room ih =>
    cases mark : m.heap.textStyle.mark? v with
    | none => exact textWithin_word refers legible mark
    | some marking =>
      obtain ⟨h, short⟩ := marking
      have inside := (refers h (by cases v <;> cases mark <;> rfl)).lt_capacity
      by_cases marked : h ∈ path
      · exact ⟨_, textWithin_marked mark marked, .abbreviated mark marked⟩
      · cases room with
        | zero => exact (around.room_left marked inside).elim
        | succ room =>
          have deeper : ∀ values w, m.heap.Refers w → m.heap.Legible w → ∃ s,
              textWithin room (h :: path) w env (m.pin values) = .ok s (m.pin values) ∧
              m.heap.textStyle.Renders {k | k ∈ h :: path} [w] [s] {k | k ∈ h :: path} :=
            fun values w refer legible => @ih room (Nat.lt_succ_self room) (m.pin values)
              (h :: path) w closed (around.cons marked inside) refer legible
          obtain ⟨c, texts, content, all, shown⟩ :=
            textWithin_fresh closed refers legible mark marked deeper
          rw [setOf_mem_cons] at all
          exact ⟨_, shown, .full mark marked content all⟩

end Texts

/-- In a closed heap each value has a debug form, and each that needs no program a text, without any
change to the machine. Both are what rendering with marks comes to. That leaves the marks it found,
so that off its mark a container is rendered in full, as often as it occurs. -/
theorem rendering_ends (closed : m.heap.Closed) (refers : m.heap.Refers v) (env : Env) :
    (∃ s, m.heap.dump v = .ok s ∧ onHeap (·.dump v) env m = .ok s m ∧ ∀ texts marks,
      m.heap.debugStyle.Renders ∅ [v] texts marks ↔ texts = [s] ∧ marks = ∅) ∧
    (m.heap.Legible v → ∃ s, toText v env m = .ok s m ∧ ∀ texts marks,
      m.heap.textStyle.Renders ∅ [v] texts marks ↔ texts = [s] ∧ marks = ∅) ∧
    ∀ style ∈ [m.heap.debugStyle, m.heap.textStyle], ∀ marks vs texts outer,
      style.Renders marks vs texts outer → outer = marks ∧
        ∀ (i : Nat) w h short, vs[i]? = some w → style.mark? w = some (h, short) → h ∉ marks →
          ∃ c shown, style.content? w = some c ∧
            style.Renders (insert h marks) c.parts shown (insert h marks) ∧
            ∀ j : Nat, vs[j]? = some w → texts[j]? = some (c.whole shown) := by
  have none : {k : Handle | k ∈ ([] : List Handle)} = ∅ := by simp
  refine ⟨?_, fun legible => ?_, fun style _ marks vs texts outer renders =>
    ⟨renders.restores, fun i w h short => renders.twice⟩⟩
  · obtain ⟨s, shown, renders⟩ := Heap.dumpWithin_total closed (Heap.around_nil _) refers
    rw [none] at renders
    exact ⟨s, shown, (onHeap_eq_ok).mpr ⟨shown, rfl⟩, fun _ _ => renders.only⟩
  · obtain ⟨s, shown, renders⟩ :=
      textWithin_total env closed (Heap.around_nil _) refers legible
    rw [none] at renders
    exact ⟨s, shown, fun _ _ => renders.only⟩

/-- A book with a codex on two pages that has the book as a value, a form that is its own guard, and
an imitation that has no value for the field. -/
def mirrorObjects : List Object :=
  [.book #[.codex ⟨1⟩, .codex ⟨1⟩], .codex [(.numeral 1, .book ⟨0⟩)],
    .form { name := "F", matter := [⟨"a", some (.form ⟨2⟩)⟩] }, .imitation { form := ⟨2⟩ }]

theorem mirror_legible : (bare mirrorObjects).heap.Legible (.book ⟨0⟩) := by
  have inside : ∀ w, (bare mirrorObjects).heap.Contains (.book ⟨0⟩) w →
      w ∈ [.book ⟨0⟩, .codex ⟨1⟩, .numeral 1] := by
    intro w inside
    -- The pages are the codex, whose key is a numeral and whose value is the book again.
    induction inside with
    | refl => exact List.mem_cons_self
    | tail _ part ih =>
      cases part with
      | @page h _ _ used member =>
        have slot : h = ⟨0⟩ := by simpa using ih
        subst slot
        cases (bare_get mirrorObjects ⟨0⟩).symm.trans used
        have page := List.eq_of_mem_replicate (n := 2) (a := Value.codex ⟨1⟩) member
        rw [page]
        decide
      | @key h _ _ used member =>
        have slot : h = ⟨1⟩ := by simpa using ih
        subst slot
        cases (bare_get mirrorObjects ⟨1⟩).symm.trans used
        cases List.mem_singleton.mp member
        decide
      | @value h _ _ used member =>
        have slot : h = ⟨1⟩ := by simpa using ih
        subst slot
        cases (bare_get mirrorObjects ⟨1⟩).symm.trans used
        cases List.mem_singleton.mp member
        decide
  intro w contained
  have genera : ∀ v ∈ [Value.book ⟨0⟩, .codex ⟨1⟩, .numeral 1],
      v.genus ≠ .imitation ∧ v.genus ≠ .journey := by decide
  exact genera w (inside w contained)

/-- The codex is shown in full on both pages, and what is met again inside is not. -/
theorem mirror_rendered : (bare mirrorObjects).heap.Closed ∧
    (bare mirrorObjects).heap.Legible (.book ⟨0⟩) ∧ ∀ env,
    onHeap (·.dump (.form ⟨2⟩)) env (bare mirrorObjects) =
      .ok "Form(F: a (...))" (bare mirrorObjects) ∧
    onHeap (·.dump (.imitation ⟨3⟩)) env (bare mirrorObjects) =
      .ok "F(a=Ni())" (bare mirrorObjects) ∧
    toText (.book ⟨0⟩) env (bare mirrorObjects) =
      .ok "[\x7b1: [...]\x7d, \x7b1: [...]\x7d]" (bare mirrorObjects) ∧
    ∀ texts marks, (bare mirrorObjects).heap.textStyle.Renders ∅ [.book ⟨0⟩] texts marks ↔
      texts = ["[\x7b1: [...]\x7d, \x7b1: [...]\x7d]"] ∧ marks = ∅ := by
  have closed : (bare mirrorObjects).heap.Closed := bare_heap_closed (by decide)
  have refers : ∀ v ∈ [.book ⟨0⟩, .form ⟨2⟩, .imitation ⟨3⟩],
      (bare mirrorObjects).heap.Refers v := by
    have there : ∀ v ∈ [Value.book ⟨0⟩, .form ⟨2⟩, .imitation ⟨3⟩], ∀ h ∈ v.handle?,
        ∃ o ∈ mirrorObjects[h.slot]?, o.genus = v.genus := by decide
    exact fun v member => bare_refers (there v member)
  refine ⟨closed, mirror_legible, fun env => ?_⟩
  obtain ⟨⟨form, dumped, calm, _⟩, _⟩ := rendering_ends closed (refers (.form ⟨2⟩) (by simp)) env
  obtain ⟨⟨imitation, dumped', calm', _⟩, _⟩ :=
    rendering_ends closed (refers (.imitation ⟨3⟩) (by simp)) env
  obtain ⟨text, shown, only⟩ :=
    (rendering_ends closed (refers (.book ⟨0⟩) (by simp)) env).2.1 mirror_legible
  cases dumped
  cases dumped'
  cases shown
  exact ⟨calm, calm', rfl, only⟩

end Run

end JourneyMachine
