import JourneyMachine.Proofs.Closure.Equality

namespace JourneyMachine.Run

open Machine (Within)

variable {strict : Prop} {R : Region strict} {env : Env} {m m₀ : Machine} {h : Handle}

/-- A value inside a container that is held and is not the target of what goes on. -/
def Anchored (m₀ : Machine) (target : Handle) (heap : Heap) (w : Value) : Prop :=
  ∃ source s o, source ∈ m₀.held ∧ source.handle? = some s ∧ s ≠ target ∧ heap.get? s = some o ∧
    w ∈ o.links

section Anchors

variable {target : Handle} {w : Value}

theorem Anchored.refers {heap : Heap} (anchored : Anchored m₀ target heap w)
    (closed : heap.Closed) : heap.Refers w := by
  obtain ⟨_, s, o, _, _, _, used, member⟩ := anchored
  exact closed s o used w member

theorem Anchored.placed {object : Object} {m' : Machine} (anchored : Anchored m₀ target m.heap w)
    (within : Within strict m₀ m) (placed : m.Placed object h m') :
    Anchored m₀ target m'.heap w := by
  obtain ⟨source, s, o, held, found, other, used, member⟩ := anchored
  refine ⟨source, s, o, held, found, other, ?_, member⟩
  exact (placed.held within.closed (within.held.symm ▸ held) found).1.trans used

theorem Anchored.edited {object : Object} {m' : Machine} (anchored : Anchored m₀ target m.heap w)
    (edited : m.Edited target object m') : Anchored m₀ target m'.heap w := by
  obtain ⟨source, s, o, held, found, other, used, member⟩ := anchored
  exact ⟨source, s, o, held, found, other, (edited.others s other).trans used, member⟩

theorem meets_push {v : Value} (held : .book target ∈ m₀.held) (refers : m.heap.Refers v) :
    Meets (.within strict m₀) env (editBook target (·.push v)) m fun _ m' =>
      ∃ object, m.Edited target object m' := by
  refine .intro fun within => ?_
  refine (meets_editBook (fun _ => (Heap.refers_book).mp (within.refers held))
    fun pages used region w member => ?_).weaken fun _ _ _ post => ⟨_, post.choose_spec.2⟩
  rw [Array.toList_push] at member
  rcases List.mem_append.mp member with before | last
  · exact region.closed.heap target _ used w before
  · rw [List.mem_singleton.mp last]
    exact refers

theorem meets_pushPairs {pairs : List (Value × Value)} (held : .book target ∈ m₀.held)
    (anchored : ∀ pair ∈ pairs,
      Anchored m₀ target m.heap pair.1 ∧ Anchored m₀ target m.heap pair.2) :
    Meets (.within strict m₀) env (pushPairs target pairs) m fun _ m' =>
      ∀ w, Anchored m₀ target m.heap w → Anchored m₀ target m'.heap w := by
  induction pairs generalizing m with
  | nil => exact .pure fun _ _ there => there
  | cons pair rest ih =>
    obtain ⟨a, b⟩ := pair
    refine .intro fun within => ?_
    have both := anchored (a, b) (List.mem_cons_self ..)
    refine (newBook_placed fun _ => List.forall_mem_cons.mpr ⟨both.1.refers within.closed.heap,
      List.forall_mem_singleton.mpr (both.2.refers within.closed.heap)⟩).bind ?_
    rintro _ m₁ _ ⟨made, rfl, placed⟩
    refine (meets_push held ((Heap.refers_book).mpr placed.holds)).bind ?_
    rintro _ m₂ _ ⟨object, edited⟩
    have step : ∀ w, Anchored m₀ target m.heap w → Anchored m₀ target m₂.heap w :=
      fun w there => (there.placed within placed).edited edited
    refine (ih fun pair member => ?_).weaken fun _ _ _ rest w there => rest w (step w there)
    have later := anchored pair (List.mem_cons_of_mem _ member)
    exact ⟨step _ later.1, step _ later.2⟩

theorem meets_pushTexts {texts : List String} (held : .book target ∈ m₀.held) :
    Meets (.within strict m₀) env (pushTexts target texts) m fun _ _ => True := by
  induction texts generalizing m with
  | nil => exact .pure fun _ => trivial
  | cons content rest ih =>
    refine (meets_newText content).bind fun page m₁ _ refers => ?_
    exact (meets_push held refers).bind fun _ _ _ _ => ih

/-- Runs a computation on a fresh container, which it returns. -/
theorem meets_onFresh (values : List Value) {fresh : Value} {c : Run Unit}
    (refer : R.holds m → ∀ v ∈ fresh :: values, m.heap.Refers v)
    (body : Meets (.within strict (m.pin (values ++ [fresh]))) env c (m.pin (values ++ [fresh]))
      fun _ _ => True) :
    Meets R env (withPinned (values ++ [fresh]) (do c; return fresh)) m
      fun v m' => m'.heap.Refers v := by
  refine (Meets.withPinned (Q := fun v _ => v = fresh) (fun region v member => refer region v ?_)
    (body.bind fun _ _ _ _ => .pure fun _ => rfl)).weaken ?_
  · simp only [List.mem_append, List.mem_singleton] at member
    exact List.mem_cons.mpr member.symm
  · rintro _ m' _ ⟨still, rfl⟩
    exact still _ (by simp)

end Anchors

/-- A codex all of whose keys are numerals, which are compared without running code. -/
def Numbered (heap : Heap) (h : Handle) : Prop :=
  ∃ entries, heap.get? h = some (.codex entries) ∧ ∀ entry ∈ entries, ∃ n, entry.1 = .numeral n

section Numbering

theorem meets_eql_numeral (a b : Int64) :
    Meets R env (eql (.numeral a) (.numeral b)) m fun _ m' => m' = m := by
  exact .congr (d := pure (decide (Value.numeral a = .numeral b))) (fun _ => rfl)
    (.pure fun _ => rfl)

theorem findKey?_numeral {entries : List (Value × Value)} (n : Int64) (position : Nat)
    (numerals : ∀ entry ∈ entries, ∃ n, entry.1 = .numeral n) :
    Meets R env (findKey? eql (.numeral n) position entries) m fun _ m' => m' = m := by
  induction entries generalizing position with
  | nil => exact .pure fun _ => rfl
  | cons entry rest ih =>
    obtain ⟨k, v⟩ := entry
    obtain ⟨i, rfl⟩ : ∃ i, k = .numeral i := numerals (k, v) (List.mem_cons_self ..)
    refine (meets_eql_numeral i n).bind ?_
    rintro same m' _ rfl
    cases same with
    | true => exact .pure fun _ => rfl
    | false => exact ih (position + 1) fun e member => numerals e (List.mem_cons_of_mem _ member)

theorem codexPosition?_numeral (n : Int64) (numbered : Numbered m.heap h) :
    Meets R env (codexPosition? h (.numeral n)) m fun _ m' => m'.heap = m.heap := by
  obtain ⟨entries, used, numerals⟩ := numbered
  refine (meets_codex fun _ => ⟨_, used, rfl⟩).bind ?_
  rintro found m' region ⟨rfl, same⟩
  cases Option.some.inj (used.symm.trans same)
  refine (Meets.withPinned (Q := fun _ heap => heap = m'.heap) (fun _ w member => ?_)
    ((findKey?_numeral n 0 numerals).weaken fun _ _ _ equal => by rw [equal]; rfl)).weaken
      fun _ _ _ post => post.2
  rcases List.mem_append.mp member with entry | last
  · exact (R.closed region).heap h _ used w entry
  · rw [List.mem_singleton.mp last]
    exact Heap.refers_numeral n

theorem codexInsertAll_numbered {entries : List (Value × Value)} (held : .codex h ∈ m₀.held)
    (numbered : Numbered m.heap h) (numerals : ∀ entry ∈ entries, ∃ n, entry.1 = .numeral n)
    (anchored : ∀ entry ∈ entries, Anchored m₀ h m.heap entry.2) :
    Meets (.within strict m₀) env (codexInsertAll h entries) m fun _ _ => True := by
  -- On the entries: keys stay numerals, so no comparison of keys runs code that could drop a value.
  induction entries generalizing m with
  | nil => exact .pure fun _ => trivial
  | cons entry rest ih =>
    obtain ⟨k, v⟩ := entry
    obtain ⟨n, rfl⟩ : ∃ n, k = .numeral n := numerals (k, v) (List.mem_cons_self ..)
    refine .intro fun within => ?_
    have value := (anchored (_, v) (List.mem_cons_self ..)).refers within.closed.heap
    refine (codexInsert_after (R := .within strict m₀) (P := fun heap => heap = m.heap)
      (Heap.refers_numeral n) value
      (fun m' there _ => (Heap.refers_codex).mp (there.refers held))
      (codexPosition?_numeral (m := m.pin [.numeral n, v]) n numbered)).bind ?_
    rintro _ m' _ ⟨m₁, before, after, same, used, edited, keys⟩
    refine ih ⟨after, edited.object, fun entry member => ?_⟩
      (fun e member => numerals e (List.mem_cons_of_mem _ member))
      fun e member => ?_
    · rcases keys entry member with key | ⟨old, of, equal⟩
      · exact ⟨n, key⟩
      · obtain ⟨entries, there, all⟩ := numbered
        rw [same, there] at used
        cases Option.some.inj used
        rw [equal]
        exact all old of
    · have there := anchored e (List.mem_cons_of_mem _ member)
      rw [← same] at there
      exact there.edited edited

theorem newCodex_numbered {source : Value} {s : Handle} {o : Object}
    {entries : List (Value × Value)} (held : source ∈ m₀.held) (found : source.handle? = some s)
    (used : m.heap.get? s = some o) (numerals : ∀ entry ∈ entries, ∃ n, entry.1 = .numeral n)
    (inside : ∀ entry ∈ entries, entry.2 ∈ o.links) :
    Meets (.within strict m₀) env (newCodex entries) m fun v m' => m'.heap.Refers v := by
  refine .intro fun within => ?_
  have heldThere : source ∈ m.held := within.held.symm ▸ held
  have parts : ∀ v ∈ (Object.codex entries).links, m.heap.Refers v := by
    intro v member
    obtain ⟨entry, there, part⟩ := List.mem_flatMap.mp member
    obtain ⟨n, numeral⟩ := numerals entry there
    rcases List.mem_cons.mp part with rfl | last
    · rw [numeral]
      exact Heap.refers_numeral n
    · rw [List.mem_singleton.mp last]
      exact within.closed.heap s o used _ (inside entry there)
  refine (Meets.withPinned (m := m)
    (Q := fun h heap => heap.get? h = some (.codex []) ∧ heap.get? s = some o ∧ s ≠ h)
    (fun _ => parts) (.intro fun start => ?_)).bind ?_
  · refine (meets_allocate (o := .codex []) (by simp [Object.genus])
      (by simp [Object.links])).weaken fun h m₁ _ placed => ?_
    have kept := placed.held start.closed (Machine.held_pin heldThere) found
    exact ⟨placed.object, kept.1.trans used, kept.2⟩
  · rintro h m₁ region ⟨_, fresh, still, other⟩
    have numbered : Numbered m₁.heap h :=
      ⟨[], fresh, fun _ member => absurd member List.not_mem_nil⟩
    refine meets_onFresh [] (fun _ => List.forall_mem_singleton.mpr ?_)
      (codexInsertAll_numbered (Machine.held_pinned (by simp)) numbered numerals
        fun entry member => ?_)
    · exact (Heap.refers_codex).mpr ⟨_, fresh, rfl⟩
    · have heldNow : source ∈ m₁.held := region.held.symm ▸ held
      exact ⟨source, s, o, Machine.held_pin heldNow, found, other, still, inside entry member⟩

end Numbering

section Containers

variable {v : Value} (calls : env.Calls strict)
include calls

theorem meets_convertContainer (change : String) (genus : Genus) (target : String)
    (refers : m.heap.Refers v) :
    Meets R env (do
      match ← convertBy? v change genus with
      | some result => return result
      | none => cannotConvert v target) m fun r m' => m'.heap.Refers r := by
  refine (meets_convertBy? calls change genus refers).bind ?_
  rintro found m' _ ⟨result, kept⟩
  cases found with
  | none => exact meets_cannotConvert target fun _ => kept
  | some r => exact .pure fun _ => (result r rfl).1

theorem meets_toBook (held : v ∈ m₀.held) :
    Meets (.within strict m₀) env (toBook v) m fun r m' => m'.heap.Refers r := by
  refine .intro fun within => ?_
  have refers := within.refers held
  unfold toBook
  cases v with
  | book h => exact .pure fun _ => refers
  | ni => exact meets_newBook (by simp)
  | numeral n => exact meets_newBook (by simp)
  | text h =>
    refine (meets_text fun _ => (Heap.refers_text).mp refers).bind ?_
    rintro content m' _ ⟨rfl, _⟩
    refine (meets_allocate (o := .book #[]) (by simp [Object.genus])
      (by simp [Object.links])).bind fun target m₁ _ placed => ?_
    exact meets_onFresh [] (fun _ => List.forall_mem_singleton.mpr
      ((Heap.refers_book).mpr placed.holds)) (meets_pushTexts (Machine.held_pinned (by simp)))
  | codex h =>
    refine (meets_codex fun _ => (Heap.refers_codex).mp refers).bind ?_
    rintro entries m' region ⟨rfl, used⟩
    refine (meets_allocate (o := .book #[]) (by simp [Object.genus])
      (by simp [Object.links])).bind fun target m₁ later placed => ?_
    obtain ⟨same, other⟩ := placed.held (k := h) region.closed (region.held.symm ▸ held) rfl
    have anchored : ∀ w ∈ (Object.codex entries).links,
        Anchored (m₁.pin ([.codex h] ++ [.book target])) target m₁.heap w := fun w member =>
      ⟨.codex h, h, .codex entries, Machine.held_pinned (by simp), rfl, other, same.trans used,
        member⟩
    refine meets_onFresh [.codex h] (fun _ => List.forall_mem_cons.mpr
      ⟨(Heap.refers_book).mpr placed.holds, List.forall_mem_singleton.mpr (later.refers held)⟩)
      ((meets_pushPairs (Machine.held_pinned (by simp)) fun pair member => ?_).weaken
        fun _ _ _ _ => trivial)
    exact ⟨anchored _ (Object.links_entry member (by simp)),
      anchored _ (Object.links_entry member (by simp))⟩
  | imitation h => exact meets_convertContainer calls "to_book" .book "book" refers
  | veracity | form | journey | other => exact meets_cannotConvert "book" fun _ => refers

theorem meets_toCodex (held : v ∈ m₀.held) :
    Meets (.within strict m₀) env (toCodex v) m fun r m' => m'.heap.Refers r := by
  refine .intro fun within => ?_
  have refers := within.refers held
  unfold toCodex
  cases v with
  | codex h => exact .pure fun _ => refers
  | ni => exact meets_newCodex calls (by simp)
  | book h =>
    refine (meets_book fun _ => (Heap.refers_book).mp refers).bind ?_
    rintro pages m' region ⟨rfl, used⟩
    refine (Meets.withPinned (Q := fun r heap => heap.Refers r)
      (fun _ => List.forall_mem_singleton.mpr refers)
      (newCodex_numbered (Machine.held_pinned (List.mem_singleton_self _)) rfl used ?_ ?_)).weaken
        fun _ _ _ post => post.2
    · intro entry member
      obtain ⟨i, inside, rfl⟩ := List.mem_iff_getElem.mp member
      simp [numbered]
    · intro entry member
      obtain ⟨i, inside, rfl⟩ := List.mem_iff_getElem.mp member
      simp [numbered, Object.links]
  | imitation h => exact meets_convertContainer calls "to_codex" .codex "codex" refers
  | veracity | numeral | text | form | journey | other =>
    exact meets_cannotConvert "codex" fun _ => refers

end Containers

end JourneyMachine.Run
