import JourneyMachine.Proofs.Containers.Dictionary
import JourneyMachine.Proofs.Control.Restoration
import JourneyMachine.Proofs.Equality.Termination

/-! Updates of a codex while equality runs code. The search for a key goes over the entries that were
there when it started, and the update takes place among those that are there when it has ended. In
between, the `==` change of a key may have done anything to the codex. As long as nothing was removed
from it at or before the place that was found, the entry in that place is still the one that was
found equal; otherwise another entry may be hit, or none may be there. -/

namespace JourneyMachine

namespace Machine

/-- From one machine to the other, nothing was removed from the first places of a codex. -/
def SparedFirst (m : Machine) (h : Handle) (count : Nat) (m' : Machine) : Prop :=
  ∃ newer, m'.removals = newer ++ m.removals ∧ SparesFirst newer h count

theorem Appends.first {m m' : Machine} (appends : m.Appends m') {h : Handle} {count : Nat}
    (spared : m.SparedFirst h count m') {entries : List (Value × Value)} (held : .codex h ∈ m.held)
    (used : m.heap.get? h = some (.codex entries)) :
    ∃ live, m'.heap.get? h = some (.codex live) ∧
      (entries.map (·.1)).take count <+: live.map (·.1) := by
  obtain ⟨newer, same, kept⟩ := appends
  obtain ⟨others, again, spares⟩ := spared
  rw [List.append_cancel_right (same.symm.trans again)] at kept
  exact kept h entries count held spares used

theorem Appends.still {m m' : Machine} (appends : m.Appends m') {h : Handle}
    {entries : List (Value × Value)} (held : .codex h ∈ m.held)
    (used : m.heap.get? h = some (.codex entries)) :
    ∃ live, m'.heap.get? h = some (.codex live) := by
  obtain ⟨newer, same, kept⟩ := appends
  obtain ⟨live, there, _⟩ := kept h entries 0 held (fun _ _ => Nat.zero_le _) used
  exact ⟨live, there⟩

end Machine

namespace Run

variable {env : Env} {m m' : Machine} {h : Handle} {key value : Value}

/-- Keys were compared with the given one, one after the other, and none was equal. -/
inductive Passed (env : Env) (key : Value) : List Value → Machine → Machine → Prop where
  | nil {m : Machine} : Passed env key [] m m
  | cons {m m₁ m' : Machine} {k : Value} {rest : List Value} : eql k key env m = .ok false m₁ →
      Passed env key rest m₁ m' → Passed env key (k :: rest) m m'

/-- A search of a codex passed the keys before a place and then found the key in it equal. -/
def FindsAt (env : Env) (h : Handle) (key : Value) (m : Machine) (place : Nat) (k v : Value)
    (m' : Machine) : Prop :=
  ∃ before after pins m₁ m₂,
    m.heap.get? h = some (.codex (before ++ (k, v) :: after)) ∧ before.length = place ∧
    Passed env key (before.map (·.1)) (m.pin pins) m₁ ∧ eql k key env m₁ = .ok true m₂ ∧
    m' = m₂.unpin m.pinned.length

theorem findKey_finds {entries : List (Value × Value)} {start place : Nat} {v : Value}
    (found : findKey? eql key start entries env m = .ok (some (place, v)) m') :
    ∃ before k after m₁, entries = before ++ (k, v) :: after ∧ place = start + before.length ∧
      Passed env key (before.map (·.1)) m m₁ ∧ eql k key env m₁ = .ok true m' := by
  induction entries generalizing start m with
  | nil => cases found
  | cons entry rest ih =>
    obtain ⟨k, w⟩ := entry
    obtain ⟨same, m₁, tested, next⟩ := (bind_eq_ok).mp found
    cases same with
    | true =>
      cases next
      exact ⟨[], k, rest, m, rfl, rfl, .nil, tested⟩
    | false =>
      obtain ⟨before, l, after, m₂, rfl, rfl, passed, equal⟩ := ih next
      refine ⟨(k, w) :: before, l, after, m₂, rfl, ?_, .cons tested passed, equal⟩
      rw [List.length_cons]
      omega

theorem codexPosition_finds {place : Nat} {v : Value}
    (found : codexPosition? h key env m = .ok (some (place, v)) m') :
    ∃ k, FindsAt env h key m place k v m' := by
  obtain ⟨entries, m₀, looked, search⟩ := (bind_eq_ok).mp found
  obtain ⟨same, rfl⟩ := (onHeap_eq_ok).mp looked
  have used := Heap.codex_ok same
  obtain ⟨m₂, hit, rfl⟩ := (withPinned_eq_ok).mp search
  obtain ⟨before, k, after, m₁, rfl, rfl, passed, equal⟩ := findKey_finds hit
  exact ⟨k, before, after, _, m₁, m₂, used, (Nat.zero_add _).symm, passed, equal, rfl⟩

section Searches

variable {place : Nat} {v : Value}

/-- Wherever a search ends, the codex is still there, with its first keys as far as they were
spared. -/
theorem search_appends (calls : env.Calls False) (closed : m.Closed) (refers : m.heap.Refers key)
    {found : Option (Nat × Value)} (search : codexPosition? h key env m = .ok found m') :
    m.Appends m' := by
  have meets := meets_codexPosition? (R := .within False m) calls (h := h) nofun refers (.refl closed)
    nofun
  rw [search] at meets
  exact meets.1.appends

theorem codex_there (closed : m.Closed) (held : .codex h ∈ m.held) :
    ∃ entries, m.heap.get? h = some (.codex entries) := by
  obtain ⟨o, used, genus⟩ := (Heap.refers_codex).mp (closed.held held)
  cases o with
  | codex entries => exact ⟨entries, used⟩
  | _ => cases genus

/-- The entry in the place that was found has the key that was found, if the places up to it were
spared. -/
theorem search_places (calls : env.Calls False) (closed : m.Closed) (held : .codex h ∈ m.held)
    (refers : m.heap.Refers key) (search : codexPosition? h key env m = .ok (some (place, v)) m')
    (spared : m.SparedFirst h (place + 1) m') :
    ∃ k live, FindsAt env h key m place k v m' ∧ m'.heap.get? h = some (.codex live) ∧
      (live.map (·.1))[place]? = some k := by
  obtain ⟨k, finds⟩ := codexPosition_finds search
  obtain ⟨before, after, _, _, _, used, rfl, _⟩ := id finds
  obtain ⟨live, there, first⟩ := (search_appends calls closed refers search).first spared held used
  have split : (before ++ (k, v) :: after).map (·.1) =
      (before.map (·.1) ++ [k]) ++ after.map (·.1) := by simp
  rw [split, List.take_left' (by simp)] at first
  obtain ⟨rest, same⟩ := first
  exact ⟨k, live, finds, there, by simp [← same]⟩

end Searches

/-- The entry in the place that a search found has the key that it found equal; an update put other
entries into the codex, and nothing else is new. -/
structure Hits (env : Env) (h : Handle) (key : Value) (m : Machine) (place : Nat) (k v : Value)
    (s : Machine) (live after : List (Value × Value)) (m' : Machine) : Prop where
  finds : FindsAt env h key m place k v s
  used : s.heap.get? h = some (.codex live)
  entry : (live.map (·.1))[place]? = some k
  edited : s.Edited h (.codex after) m'

theorem modify_entry {live : List (Value × Value)} {place : Nat} {k : Value}
    (entry : (live.map (·.1))[place]? = some k) :
    (live.modify place fun (k, _) => (k, value)) = live.set place (k, value) := by
  rw [List.getElem?_map, Option.map_eq_some_iff] at entry
  obtain ⟨⟨_, w⟩, entry, rfl⟩ := entry
  rw [List.modify_eq_set_getElem?, entry]
  rfl

/-- The machine after a search for a key that is to be stored. -/
theorem stored_after {α : Type} {c : Option (Nat × Value) → Run α} {found : Option (Nat × Value)}
    {s : Machine} (search : codexPosition? h key env (m.pin [key, value]) = .ok found s) :
    (withPinned [key, value] (codexPosition? h key) >>= c) env m =
      c found env (s.unpin m.pinned.length) :=
  bind_ok ((withPinned_eq_ok).mpr ⟨s, search, rfl⟩)

theorem indexAssign_failed {unwind : Unwind} {s : Machine}
    (search : codexPosition? h key env (m.pin [key, value]) = .error unwind s) :
    ∃ m', indexAssign (.codex h) key value env m = .error unwind m' ∧ m'.heap = s.heap := by
  have failed : ∃ m', withPinned [key, value] (codexPosition? h key) env m = .error unwind m' ∧
      m'.heap = s.heap := by
    rw [withPinned_eq, search]
    cases unwind <;> exact ⟨_, rfl, rfl⟩
  obtain ⟨m', failed, same⟩ := failed
  exact ⟨m', bind_error failed, same⟩

/-- A key that was not found is stored after the entries that are there then. -/
theorem indexAssign_appends (calls : env.Calls False) (closed : m.Closed)
    (held : .codex h ∈ m.held) (refersKey : m.heap.Refers key) (refersValue : m.heap.Refers value)
    {s : Machine} (search : codexPosition? h key env (m.pin [key, value]) = .ok none s) :
    ∃ live m', indexAssign (.codex h) key value env m = .ok () m' ∧
      s.heap.get? h = some (.codex live) ∧ s.Edited h (.codex (live ++ [(key, value)])) m' := by
  have start : (m.pin [key, value]).Closed := closed.pin (by simp [refersKey, refersValue])
  obtain ⟨entries, used⟩ := codex_there closed held
  obtain ⟨live, there⟩ :=
    (search_appends calls start refersKey search).still (Machine.held_pin held) used
  obtain ⟨m', done, edited, _⟩ :=
    editCodex_done (m := s.unpin m.pinned.length) (f := (· ++ [(key, value)])) there
  exact ⟨live, m', (stored_after search).trans done, there,
    edited.object, edited.others, edited.refers⟩

theorem indexAssign_hits (calls : env.Calls False) (closed : m.Closed) (held : .codex h ∈ m.held)
    (refersKey : m.heap.Refers key) (refersValue : m.heap.Refers value) {place : Nat} {v : Value}
    {s : Machine} (search : codexPosition? h key env (m.pin [key, value]) = .ok (some (place, v)) s)
    (spared : m.SparedFirst h (place + 1) s) :
    ∃ k live m', indexAssign (.codex h) key value env m = .ok () m' ∧
      Hits env h key (m.pin [key, value]) place k v s live (live.set place (k, value)) m' := by
  have start : (m.pin [key, value]).Closed := closed.pin (by simp [refersKey, refersValue])
  obtain ⟨k, live, finds, there, entry⟩ :=
    search_places calls start (Machine.held_pin held) refersKey search spared
  have inside : place < live.length := by
    simpa using (List.getElem?_eq_some_iff.mp entry).1
  obtain ⟨m', done, edited, _⟩ := editEntry_done (m := s.unpin m.pinned.length)
    (f := (·.modify place fun (k, _) => (k, value))) there inside
  rw [modify_entry entry] at edited
  exact ⟨k, live, m', (stored_after search).trans done, finds, there, entry,
    edited.object, edited.others, edited.refers⟩

theorem delete_hits (calls : env.Calls False) (closed : m.Closed) (held : .codex h ∈ m.held)
    (refersKey : m.heap.Refers key) {place : Nat} {v : Value} {s : Machine}
    (search : codexPosition? h key env m = .ok (some (place, v)) s)
    (spared : m.SparedFirst h (place + 1) s) :
    ∃ k live m', delete (.codex h) key env m = .ok v m' ∧
      Hits env h key m place k v s live (live.eraseIdx place) m' := by
  obtain ⟨k, live, finds, there, entry⟩ := search_places calls closed held refersKey search spared
  have inside : place < live.length := by
    simpa using (List.getElem?_eq_some_iff.mp entry).1
  obtain ⟨m', done, edited, _⟩ : ∃ m', removeEntry h place env s = .ok () m' ∧ _ :=
    removeEntry_done there inside
  have removed : codexRemove? h key env m = .ok (some v) m' :=
    (bind_ok search).trans (bind_ok done)
  exact ⟨k, live, m', bind_ok removed, finds, there, entry, edited⟩

end Run

namespace Machine

open Run (codexPosition? indexAssign delete Hits)

variable {m : Machine} {h : Handle} {key value : Value}

/-- However the search for a key ends and whatever code it ran, an update of a codex that the
machine holds ends as the search did or does what follows. A key that was not found is stored last,
or nothing is removed. If a key was found and no entry up to its place was removed meanwhile, the
update takes place inside the entries that are there then, and the only entry that it hits is the
one whose key was found equal. -/
theorem updates_hit_found_entry (closed : m.Closed) (held : .codex h ∈ m.held)
    (refersKey : m.heap.Refers key) (refersValue : m.heap.Refers value) (depth : Nat) :
    ((∀ unwind s, codexPosition? h key (calling depth) (m.pin [key, value]) = .error unwind s →
        ∃ m', indexAssign (.codex h) key value (calling depth) m = .error unwind m' ∧
          m'.heap = s.heap) ∧
      (∀ s, codexPosition? h key (calling depth) (m.pin [key, value]) = .ok none s →
        ∃ live m', indexAssign (.codex h) key value (calling depth) m = .ok () m' ∧
          s.heap.get? h = some (.codex live) ∧ s.Edited h (.codex (live ++ [(key, value)])) m') ∧
      ∀ place v s,
        codexPosition? h key (calling depth) (m.pin [key, value]) = .ok (some (place, v)) s →
        m.SparedFirst h (place + 1) s →
        ∃ k live m', indexAssign (.codex h) key value (calling depth) m = .ok () m' ∧
          Hits (calling depth) h key (m.pin [key, value]) place k v s live
            (live.set place (k, value)) m') ∧
    (∀ unwind s, codexPosition? h key (calling depth) m = .error unwind s →
      delete (.codex h) key (calling depth) m = .error unwind s) ∧
    (∀ s, codexPosition? h key (calling depth) m = .ok none s →
      delete (.codex h) key (calling depth) m = .ok .ni s) ∧
    ∀ place v s, codexPosition? h key (calling depth) m = .ok (some (place, v)) s →
      m.SparedFirst h (place + 1) s →
      ∃ k live m', delete (.codex h) key (calling depth) m = .ok v m' ∧
        Hits (calling depth) h key m place k v s live (live.eraseIdx place) m' := by
  have calls : (calling depth).Calls False := callAt_calls False _ _
  refine ⟨⟨?_, ?_, ?_⟩, ?_, ?_, ?_⟩
  · exact fun unwind s => Run.indexAssign_failed
  · exact fun s => Run.indexAssign_appends calls closed held refersKey refersValue
  · exact fun place v s => Run.indexAssign_hits calls closed held refersKey refersValue
  · exact fun unwind s search => Run.bind_error (Run.bind_error search)
  · intro s search
    have removed : Run.codexRemove? h key (calling depth) m = .ok none s := Run.bind_ok search
    exact Run.bind_ok removed
  · exact fun place v s => Run.delete_hits calls closed held refersKey

/-- The `==` change that finds 7 equal, but only after removing the key 1 from the codex in the first
global. -/
def meddle : Pattern where
  positional := [{ name := "self" }, { name := "other" }]
  block :=
    { registers := 4
      constants := #[.numeral 1, .numeral 7]
      code := #[Opcode.cload.word, 1, 3, Opcode.eql.word, 1, 3, 2, Opcode.jmpFalse.word, 2, 21,
        Opcode.gload.word, 0, 3, Opcode.cload.word, 0, 0,
        Opcode.int.word, Interrupt.arrayDelete.word, 3, 0, 3, Opcode.ret.word, 2] }

/-- An imitation whose `==` meddles, and a codex. -/
def meddlers (entries : List (Value × Value)) : List Object :=
  [.journey { name := "==", patterns := [meddle] },
    .form { name := "F", changes := [⟨0⟩] },
    .imitation { form := ⟨1⟩, matter := #[] },
    .codex entries]

def meddling (entries : List (Value × Value)) : Machine :=
  { Run.bare (meddlers entries) with
    program := { globals := #[("c", .codex ⟨3⟩)] }
    pinned := [.codex ⟨3⟩]
    builtins := { exception := ⟨1⟩, ioError := ⟨1⟩, heapExhausted := ⟨2⟩ }
    budget := 30 }

theorem meddling_get (entries : List (Value × Value)) (h : Handle) :
    (meddling entries).heap.get? h = (meddlers entries)[h.slot]? := Run.bare_get _ h

/-- Whether a search of the codex for 7 finds a value in that place, after these entries were
removed and those left. -/
def leavesFound (m : Machine) (place : Nat) (v : Value) (removed : List (Handle × Nat))
    (live : List (Value × Value)) : Bool :=
  match codexPosition? ⟨3⟩ (.numeral 7) (calling 9) (m.pin [.numeral 7, .numeral 99]) with
  | .ok found s =>
    found = some (place, v) && s.removals = removed && s.heap.get? ⟨3⟩ = some (.codex live)
  | .error _ _ => false

theorem leavesFound_iff {m : Machine} {place : Nat} {v : Value} {removed : List (Handle × Nat)}
    {live : List (Value × Value)} : m.leavesFound place v removed live = true ↔
      ∃ s, codexPosition? ⟨3⟩ (.numeral 7) (calling 9) (m.pin [.numeral 7, .numeral 99]) =
        .ok (some (place, v)) s ∧ s.removals = removed ∧ s.heap.get? ⟨3⟩ = some (.codex live) := by
  unfold leavesFound
  cases codexPosition? ⟨3⟩ (.numeral 7) (calling 9) (m.pin [.numeral 7, .numeral 99]) with
  | ok found s => simp [and_assoc]
  | error unwind s => simp

/-- The imitation before the key that its change removes. -/
def ahead : List (Value × Value) :=
  [(.imitation ⟨2⟩, .numeral 20), (.numeral 1, .numeral 10), (.numeral 2, .numeral 30)]

def behind : List (Value × Value) :=
  [(.numeral 1, .numeral 10), (.imitation ⟨2⟩, .numeral 20), (.numeral 2, .numeral 30)]

def remaining : List (Value × Value) :=
  [(.imitation ⟨2⟩, .numeral 20), (.numeral 2, .numeral 30)]

theorem closed_ahead : (meddling ahead).Closed := Run.bare_closed rfl rfl (by decide)

theorem closed_behind : (meddling behind).Closed := Run.bare_closed rfl rfl (by decide)

/-- The entry after the one that is found is removed during the search, and the one that was found
is updated. -/
theorem meddling_hits : (meddling ahead).Closed ∧ ∃ s m',
    codexPosition? ⟨3⟩ (.numeral 7) (calling 9) ((meddling ahead).pin [.numeral 7, .numeral 99]) =
      .ok (some (0, .numeral 20)) s ∧ (meddling ahead).SparedFirst ⟨3⟩ 1 s ∧
    s.heap.get? ⟨3⟩ = some (.codex remaining) ∧
    indexAssign (.codex ⟨3⟩) (.numeral 7) (.numeral 99) (calling 9) (meddling ahead) = .ok () m' ∧
    m'.heap.get? ⟨3⟩ =
      some (.codex [(.imitation ⟨2⟩, .numeral 99), (.numeral 2, .numeral 30)]) := by
  have found : (meddling ahead).leavesFound 0 (.numeral 20) [(⟨3⟩, 1)] remaining = true := by
    decide +kernel
  obtain ⟨s, search, removed, left⟩ := leavesFound_iff.mp found
  have spared : (meddling ahead).SparedFirst ⟨3⟩ 1 s := by
    refine ⟨[(⟨3⟩, 1)], removed, fun position member => ?_⟩
    cases List.mem_singleton.mp member
    exact Nat.le_refl 1
  obtain ⟨⟨_, _, stores⟩, _⟩ := updates_hit_found_entry closed_ahead
    (List.mem_singleton_self (Value.codex ⟨3⟩)) (Heap.refers_numeral 7) (Heap.refers_numeral 99) 9
  obtain ⟨k, live, m', done, hits⟩ := stores 0 (.numeral 20) s search spared
  cases left.symm.trans hits.used
  cases hits.entry
  exact ⟨closed_ahead, s, m', search, spared, left, done, hits.edited.object⟩

/-- Without that condition an update can hit another entry. -/
theorem meddling_misses : ¬ ∀ (m : Machine) h key value depth, m.Closed → .codex h ∈ m.held →
    m.heap.Refers key → m.heap.Refers value → ∀ place v s,
    codexPosition? h key (calling depth) (m.pin [key, value]) = .ok (some (place, v)) s →
    ∃ k live m', indexAssign (.codex h) key value (calling depth) m = .ok () m' ∧
      Hits (calling depth) h key (m.pin [key, value]) place k v s live
        (live.set place (k, value)) m' := by
  intro claimed
  have found : (meddling behind).leavesFound 1 (.numeral 20) [(⟨3⟩, 0)] remaining = true := by
    decide +kernel
  obtain ⟨s, search, _, left⟩ := leavesFound_iff.mp found
  obtain ⟨k, live, m', _, hits⟩ := claimed (meddling behind) ⟨3⟩ (.numeral 7) (.numeral 99) 9
    closed_behind (List.mem_singleton_self (Value.codex ⟨3⟩)) (Heap.refers_numeral 7)
    (Heap.refers_numeral 99) 1 (.numeral 20) s search
  cases left.symm.trans hits.used
  -- The entry that is there is that of 2, but it was the imitation that was found.
  cases hits.entry
  obtain ⟨before, after, _, _, _, used, length, _⟩ := hits.finds
  have entries : behind = before ++ (Value.numeral 2, Value.numeral 20) :: after := by
    have same := (meddling_get behind ⟨3⟩).symm.trans used
    simpa [meddlers] using same
  have there : behind[1]? = some (.numeral 2, .numeral 20) := by
    rw [entries, ← length, List.getElem?_append_right (Nat.le_refl _), Nat.sub_self]
    rfl
  cases there

end Machine

end JourneyMachine
