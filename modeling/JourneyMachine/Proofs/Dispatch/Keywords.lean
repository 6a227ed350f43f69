import JourneyMachine.Proofs.Dispatch.Binding

namespace JourneyMachine

open Machine (Binding Placed Edited)

namespace Dispatch

variable {heap after : Heap} {entries : List (Value × Value)} {named : List (String × Value)}

/-- What a codex spells depends on the texts that are its keys only. -/
theorem Spells.of_texts (spells : Spells heap entries named)
    (same : ∀ entry ∈ entries, ∀ t, entry.1 = .text t → after.get? t = heap.get? t) :
    Spells after entries named := by
  induction spells with
  | nil => exact .nil
  | @cons entry k entries named spelled _ ih =>
    obtain ⟨⟨t, key, content⟩, value⟩ := spelled
    refine .cons ⟨⟨t, key, ?_⟩, value⟩ (ih fun e member => same e (List.mem_cons_of_mem _ member))
    rw [same entry (List.mem_cons_self ..) t key, content]

theorem Spells.keys (spells : Spells heap entries named) {entry : Value × Value}
    (member : entry ∈ entries) : ∃ t name, entry.1 = .text t ∧ heap.get? t = some (.text name) := by
  induction spells with
  | nil => simp at member
  | cons spelled _ ih =>
    rcases List.mem_cons.mp member with rfl | later
    · obtain ⟨⟨t, key, content⟩, _⟩ := spelled
      exact ⟨t, _, key, content⟩
    · exact ih later

end Dispatch

namespace Run

open Dispatch

variable {α : Type} {env : Env} {m m₁ m₂ m' m₀ : Machine} {h target : Handle} {p : Pattern}
  {entries : List (Value × Value)} {named : List (String × Value)} {name : String} {t : Handle}
  {v : Value}

section Insertion

theorem withPinned_eq_ok {values : List Value} {c : Run α} {a : α} :
    withPinned values c env m = .ok a m' ↔
      ∃ m₁, c env (m.pin values) = .ok a m₁ ∧ m₁.unpin m.pinned.length = m' := by
  rw [withPinned_eq]
  rcases c env (m.pin values) with _ | ⟨_ | _ | _, _⟩ <;> simp [release]

theorem withPinned_ok {values : List Value} {c : Run α} {a : α}
    (done : c env (m.pin values) = .ok a (m.pin values)) : withPinned values c env m = .ok a m :=
  (withPinned_eq_ok).mpr ⟨_, done, m.unpin_pin values⟩

theorem eql_text {l r : Handle} {left right : String} {same : Bool}
    (first : m.heap.get? l = some (.text left)) (second : m.heap.get? r = some (.text right))
    (done : eql (.text l) (.text r) env m = .ok same m') :
    m = m' ∧ (same = true ↔ left = right) := by
  have here : eqlWithin (env.depth + comparisonRoom m.heap.capacity + 1) [] (.text l) (.text r)
    env m = .ok same m' := done
  simp only [eqlWithin] at here
  split at here
  · rename_i equal
    obtain ⟨rfl, rfl⟩ := (pure_eq_ok).mp here
    rw [equal, second] at first
    cases first
    simp
  · simp only [bind_eq_ok, pure_eq_ok, text, onHeap_eq_ok] at here
    obtain ⟨a, _, ⟨read, rfl⟩, b, _, ⟨again, rfl⟩, rfl, rfl⟩ := here
    have one := Heap.text_ok read
    have two := Heap.text_ok again
    rw [first] at one
    rw [second] at two
    cases one
    cases two
    simp

/-- A search that starts at a position finds the entry in whose place a value is filed. -/
def Locates (heap : Heap) (entries : List (Value × Value)) (named : List (String × Value))
    (new : String × Value) (position : Nat) (found : Option (Nat × Value)) : Prop :=
  (found = none ∧ filed named new = named ++ [new]) ∨
    ∃ i w, found = some (position + i, w) ∧ i < entries.length ∧
      Spells heap (entries.modify i fun (k, _) => (k, new.2)) (filed named new)

theorem findKey_spelled {position : Nat} {found : Option (Nat × Value)}
    (spells : Spells m.heap entries named) (key : m.heap.get? t = some (.text name))
    (done : findKey? eql (.text t) position entries env m = .ok found m') :
    m = m' ∧ Locates m.heap entries named (name, v) position found := by
  -- On the entries: a key that spells the name ends the search, and others stay as they are.
  induction spells generalizing position with
  | nil =>
    obtain ⟨rfl, rfl⟩ := (pure_eq_ok).mp done
    exact ⟨rfl, .inl ⟨rfl, rfl⟩⟩
  | @cons entry k entries named spelled spells ih =>
    obtain ⟨existing, w⟩ := entry
    obtain ⟨⟨s, key', content⟩, value⟩ := spelled
    dsimp only at key' value
    subst key' value
    unfold findKey? at done
    obtain ⟨same, m₁, compared, rest⟩ := (bind_eq_ok).mp done
    obtain ⟨rfl, equal⟩ := eql_text content key compared
    cases same with
    | true =>
      have here : k.1 = name := equal.mp rfl
      obtain ⟨rfl, rfl⟩ := (pure_eq_ok).mp rest
      refine ⟨rfl, .inr ⟨0, k.2, rfl, by simp, ?_⟩⟩
      simp only [filed, here, if_true, List.modify_zero_cons]
      exact .cons ⟨⟨s, rfl, here ▸ content⟩, rfl⟩ spells
    | false =>
      have other : k.1 ≠ name := fun here => by simpa using equal.mpr here
      obtain ⟨rfl, outcome⟩ := ih rest
      refine ⟨rfl, ?_⟩
      rcases outcome with ⟨rfl, missing⟩ | ⟨i, w, rfl, inside, spelled⟩
      · left
        simp [filed, other, missing]
      · right
        refine ⟨i + 1, w, by rw [Nat.add_assoc, Nat.add_comm 1 i], by simpa using inside, ?_⟩
        simp only [filed, other, if_false, List.modify_succ_cons]
        exact .cons ⟨⟨s, rfl, content⟩, rfl⟩ spelled

/-- The object with other entries if it is a codex. -/
def recoded (f : List (Value × Value) → List (Value × Value)) : Object → Object
  | .codex entries => .codex (f entries)
  | object => object

theorem editCodex_ok {f : List (Value × Value) → List (Value × Value)}
    (used : m.heap.get? target = some (.codex entries))
    (done : editCodex target f env m = .ok () m') : m.Edited target (.codex (f entries)) m' := by
  obtain ⟨_, m₁, looked, updated⟩ := (bind_eq_ok).mp done
  have seen : (codex target >>= fun _ => pure ()) env m = .ok _ m₁ := looked
  obtain ⟨_, m₂, read, again⟩ := (bind_eq_ok).mp seen
  obtain ⟨_, rfl⟩ := (onHeap_eq_ok).mp read
  obtain ⟨_, rfl⟩ := (pure_eq_ok).mp again
  cases updated
  exact Machine.edited (f := recoded f) used .codex

theorem codexPosition_spelled {found : Option (Nat × Value)}
    (used : m.heap.get? target = some (.codex entries)) (spells : Spells m.heap entries named)
    (key : m.heap.get? t = some (.text name))
    (done : codexPosition? target (.text t) env m = .ok found m') :
    m = m' ∧ Locates m.heap entries named (name, v) 0 found := by
  obtain ⟨listed, m₁, read, search⟩ := (bind_eq_ok).mp done
  obtain ⟨looked, rfl⟩ := (onHeap_eq_ok).mp read
  have same : m.heap.get? target = some (.codex listed) := Heap.codex_ok looked
  rw [used] at same
  cases same
  obtain ⟨m₂, find, rfl⟩ := (withPinned_eq_ok).mp search
  obtain ⟨rfl, located⟩ := findKey_spelled (m := m.pin _) (v := v) spells key find
  exact ⟨(m.unpin_pin _).symm, located⟩

theorem editEntry_ok {f : List (Value × Value) → List (Value × Value)} {position : Nat}
    (used : m.heap.get? target = some (.codex entries))
    (done : editEntry target position f env m = .ok () m') :
    m.Edited target (.codex (f entries)) m' := by
  obtain ⟨listed, m₁, read, rest⟩ := (bind_eq_ok).mp done
  obtain ⟨_, rfl⟩ := (onHeap_eq_ok).mp read
  split at rest
  · exact editCodex_ok used rest
  · cases rest

/-- A value is stored under the name that its key is a text of, and nothing else changes. -/
theorem codexInsert_filed (used : m.heap.get? target = some (.codex entries))
    (spells : Spells m.heap entries named) (key : m.heap.get? t = some (.text name))
    (done : codexInsert target (.text t) v env m = .ok () m') :
    (∃ after, m'.heap.get? target = some (.codex after) ∧
      Spells m'.heap after (filed named (name, v))) ∧
    ∀ k, k ≠ target → m'.heap.get? k = m.heap.get? k := by
  -- The target is a codex, so that no key is changed with it.
  have apart : ∀ k content, m.heap.get? k = some (.text content) → k ≠ target := by
    rintro k content there rfl
    rw [used] at there
    cases there
  have still : ∀ {after named}, Spells m.heap after named →
      (∀ k, k ≠ target → m'.heap.get? k = m.heap.get? k) → Spells m'.heap after named := by
    intro after named spells others
    apply spells.of_texts
    intro entry member t' same
    obtain ⟨_, content, found, there⟩ := spells.keys member
    cases same.symm.trans found
    exact others t' (apart t' content there)
  obtain ⟨found, m₁, searched, stored⟩ := (bind_eq_ok).mp done
  obtain ⟨m₂, search, rfl⟩ := (withPinned_eq_ok).mp searched
  obtain ⟨rfl, located⟩ :=
    codexPosition_spelled (m := m.pin [.text t, v]) (v := v) used spells key search
  rw [Machine.unpin_pin] at stored
  rcases located with ⟨rfl, missing⟩ | ⟨i, w, rfl, _, spelled⟩
  · have edited := editCodex_ok used stored
    refine ⟨⟨_, edited.object, ?_⟩, edited.others⟩
    rw [missing]
    exact still (List.rel_append spells (.cons ⟨⟨t, rfl, key⟩, rfl⟩ .nil)) edited.others
  · have edited := editEntry_ok used stored
    rw [Nat.zero_add] at edited
    exact ⟨⟨_, edited.object, still spelled edited.others⟩, edited.others⟩

end Insertion

end Run

namespace Dispatch

open Run

variable {env : Env} {m m₁ m₂ m' m₀ : Machine} {h target : Handle} {p : Pattern}
  {named keywords : List (String × Value)} {name : String} {v : Value}

/-- While keywords are collected, the codex is in its register and spells those that were stored. -/
structure Collects (m₀ : Machine) (h : Handle) (p : Pattern) (target : Handle)
    (named : List (String × Value)) (m : Machine) : Prop where
  binding : Binding m₀ h p m
  slot : m.slot? p.splatsplatRegister = some (.codex target)
  content : ∃ entries, m.heap.get? target = some (.codex entries) ∧ Spells m.heap entries named

variable (calls : env.Calls False) (orderly : env.Orderly)
include calls orderly

theorem Collects.stored {key : Value} (collects : Collects m₀ h p target named m)
    (held : v ∈ m₀.held) (made : newText name env m = .ok key m₁)
    (inserted : codexInsert target key v env m₁ = .ok () m₂) :
    Collects m₀ h p target (filed named (name, v)) m₂ ∧ m₂.frames = m.frames ∧
      ∀ r w k, m.slot? r = some w → w.handle? = some k → k ≠ target →
        m₂.heap.get? k = m.heap.get? k := by
  obtain ⟨entries, used, spells⟩ := collects.content
  obtain ⟨t, m', allocation, given⟩ := (bind_eq_ok).mp made
  obtain ⟨rfl, rfl⟩ := (pure_eq_ok).mp given
  obtain ⟨bound, frames, placed⟩ := allocated collects.binding (by simp [Object.genus])
    (by simp [Object.links]) allocation
  have closed := collects.binding.active.closed
  have inside : .codex target ∈ m.held := Machine.slot_held collects.slot
  have reachable : m.heap.Reachable (m.links.filterMap Value.handle?) target :=
    (closed.held inside).reachable (Machine.held_sub_links inside) rfl
  have usedStill : m'.heap.get? target = some (.codex entries) :=
    (placed.held closed inside rfl).1.trans used
  -- The keys so far are reachable from the codex, so that the new text is none of them.
  have spellsStill : Spells m'.heap entries named := by
    apply spells.of_texts
    intro entry member s same
    have part : .text s ∈ (Object.codex entries).links :=
      Object.links_entry member (by simp [same])
    exact (placed.kept s (closed.heap.reachable reachable used part rfl)).1
  obtain ⟨content, others⟩ := codexInsert_filed usedStill spellsStill placed.object inserted
  have slot : m'.slot? p.splatsplatRegister = some (.codex target) := by
    rw [Machine.slot_of_frames frames, collects.slot]
  have meets : Meets (.within False m') env (codexInsert target (.text t) v) m' fun _ _ => True :=
    meets_codexInsert calls (Machine.slot_held slot) ((Heap.refers_text).mpr placed.holds)
      (bound.refers held)
  obtain ⟨last, framesSame, _⟩ :=
    passed bound meets (orderly_codexInsert orderly ..) inserted
  refine ⟨⟨last, ?_, content⟩, framesSame.trans frames, fun r w k found refers other => ?_⟩
  · rw [Machine.slot_of_frames framesSame, slot]
  · rw [others k other, (placed.held closed (Machine.slot_held found) refers).1]

theorem Gathers.collects (gathers : Gathers env target keywords m m')
    (held : ∀ k ∈ keywords, k.2 ∈ m₀.held) (collects : Collects m₀ h p target named m) :
    Collects m₀ h p target (keywords.foldl filed named) m' ∧ m'.frames = m.frames ∧
      ∀ r w k, m.slot? r = some w → w.handle? = some k → k ≠ target →
        m'.heap.get? k = m.heap.get? k := by
  induction gathers generalizing named with
  | done => exact ⟨collects, rfl, fun _ _ _ _ _ _ => rfl⟩
  | @stored name v key rest m m₁ m₂ m' made inserted _ ih =>
    obtain ⟨next, frames, kept⟩ :=
      collects.stored calls orderly (held (name, v) (List.mem_cons_self ..)) made inserted
    obtain ⟨last, framesSame, still⟩ :=
      ih (fun k member => held k (List.mem_cons_of_mem _ member)) next
    refine ⟨last, framesSame.trans frames, fun r w k found refers other => ?_⟩
    rw [← Machine.slot_of_frames frames] at found
    rw [still r w k found refers other]
    rw [Machine.slot_of_frames frames] at found
    exact kept r w k found refers other

/-- The codex of unknown keywords is made: it spells them, and nothing else is changed. -/
theorem Splatsplats.collected {handle : Option Handle}
    (splatsplats : Splatsplats env p keywords m handle m') (held : ∀ k ∈ keywords, k.2 ∈ m₀.held)
    (binding : Binding m₀ h p m) : Binding m₀ h p m' ∧
      (∀ r, r ≠ p.splatsplatRegister → m'.slot? r = m.slot? r) ∧
      (∀ r w k, r ≠ p.splatsplatRegister → m.slot? r = some w → w.handle? = some k →
        m'.heap.get? k = m.heap.get? k) ∧
      (p.splatsplat = true → ∃ target, handle = some target ∧
        Collects m₀ h p target (keywords.foldl filed []) m') := by
  cases splatsplats with
  | without none => exact ⟨binding, fun _ _ => rfl, fun _ _ _ _ _ _ => rfl, by simp [none]⟩
  | codex has made fresh gathers =>
    rename_i m₁ target
    obtain ⟨bound, frames, _⟩ := allocated binding (by simp [Object.genus])
      (by simp [Object.links]) made
    have wide := bound.wide _ (Pattern.splatsplatRegister_lt has)
    have start : Collects m₀ h p target [] (m₁.store p.splatsplatRegister (.codex target)) :=
      ⟨bound.store ((Heap.refers_codex).mpr fresh.holds), Machine.slot_stored wide,
        [], fresh.object, .nil⟩
    obtain ⟨collects, framesSame, kept⟩ := gathers.collects calls orderly held start
    refine ⟨collects.binding, fun r other => ?_, fun r w k other found refers => ?_,
      fun _ => ⟨target, rfl, collects⟩⟩
    · rw [Machine.slot_of_frames framesSame, Machine.slot_store_of_ne other,
        Machine.slot_of_frames frames]
    · obtain ⟨same, apart⟩ :=
        fresh.held binding.active.closed (Machine.slot_held found) refers
      refine (kept r w k ?_ refers apart).trans same
      rw [Machine.slot_store_of_ne other, Machine.slot_of_frames frames, found]

end Dispatch

end JourneyMachine
