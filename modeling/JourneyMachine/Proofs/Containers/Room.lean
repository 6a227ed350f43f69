import JourneyMachine.Proofs.Containers.Throws
import JourneyMachine.Proofs.Image.Rooting

namespace JourneyMachine

namespace Machine

variable {m m₁ m' : Machine} {o : Object} {b h : Handle} {v : Value} {n : Nat}

/-- The roots leave room for so many objects more. -/
def HasRoom (m : Machine) (n : Nat) : Prop := m.reachableCount + n ≤ m.heap.capacity

/-- The roots lead to what is in a slot, if there is anything in it. -/
def Reaches (m : Machine) (h : Handle) : Prop :=
  ∀ o, m.heap.get? h = some o → m.heap.Reachable m.roots h

theorem Reaches.root (member : h ∈ m.roots) : m.Reaches h := fun _ => .root member

theorem Reaches.child {p : Handle} (parent : m.heap.Reachable m.roots p)
    (used : m.heap.get? p = some o) (member : h ∈ o.children) : m.Reaches h :=
  fun _ => .child parent used member

/-- Further roots lead nowhere else if the roots reach them. -/
theorem Reaches.reachable {more : List Handle} (reaches : ∀ k ∈ more, m.Reaches k)
    (reachable : m.heap.Reachable (m.roots ++ more) h) : m.heap.Reachable m.roots h := by
  induction reachable with
  | root member used =>
    rcases List.mem_append.mp member with root | new
    · exact .root root used
    · exact reaches _ new _ used
  | child _ parent member used ih => exact .child ih parent member used

theorem HasRoom.mono {k : Nat} (room : m.HasRoom n) (less : k ≤ n) : m.HasRoom k :=
  (Nat.add_le_add_left less _).trans room

theorem HasRoom.of_reachable (room : m.HasRoom n) (capacity : m'.heap.capacity = m.heap.capacity)
    (sub : ∀ k, m'.heap.Reachable m'.roots k → m.heap.Reachable m.roots k) : m'.HasRoom n := by
  have finite := (Rooted.finite_below _).subset (Rooted.reachable_below m)
  have count : m'.reachableCount ≤ m.reachableCount := Set.ncard_le_ncard sub finite
  unfold HasRoom at room ⊢
  omega

/-- Where one object came in, and neither it nor the roots nor the objects that were there hold
anything else that is new, one slot more is needed at most. -/
theorem HasRoom.next (room : m.HasRoom (n + 1)) (capacity : m'.heap.capacity = m.heap.capacity)
    (own : m'.heap.get? h = some o) (holds : ∀ k ∈ o.children, m.Reaches k)
    (roots : ∀ k ∈ m'.roots, k = h ∨ m.Reaches k)
    (known : ∀ k p, m'.heap.get? k = some p → k = h ∨ ∃ q, m.heap.get? k = some q ∧
      ∀ c ∈ p.children, c = h ∨ c ∈ q.children) : m'.HasRoom n := by
  -- On a way from the roots nothing is new but the object, and it leads back to what was there.
  have more : ∀ k, m'.heap.Reachable m'.roots k → k = h ∨ m.heap.Reachable m.roots k := by
    intro k reachable
    induction reachable with
    | root member used =>
      rcases known _ _ used with new | ⟨q, before, _⟩
      · exact .inl new
      · exact (roots _ member).imp_right fun reaches => reaches q before
    | @child p k o' q _ parent member used ih =>
      rcases known k q used with new | ⟨_, before, _⟩
      · exact .inl new
      · have led : k ∈ o.children → k = h ∨ m.heap.Reachable m.roots k :=
          fun held => .inr (holds k held _ before)
        rcases known p o' parent with rfl | ⟨old, there, inner⟩
        · cases own.symm.trans parent
          exact led member
        · rcases ih with rfl | reachable
          · cases own.symm.trans parent
            exact led member
          · exact (inner k member).imp_right fun held => .child reachable there held before
  have finite := (Rooted.finite_below _).subset (Rooted.reachable_below m)
  have count : m'.reachableCount ≤ m.reachableCount + 1 :=
    (Set.ncard_le_ncard more (finite.insert h)).trans (Set.ncard_insert_le h _)
  unfold HasRoom at room ⊢
  omega

/-- A new object takes one slot, also when it is pinned. -/
theorem HasRoom.allocated (room : m.HasRoom (n + 1)) (allocated : m.Allocated o h m₁)
    (holds : ∀ k ∈ o.children, m.Reaches k) (heap : m'.heap = m₁.heap)
    (roots : ∀ k ∈ m'.roots, k = h ∨ m.Reaches k) : m'.HasRoom n := by
  refine room.next (heap ▸ allocated.capacity) (heap ▸ allocated.object) holds roots ?_
  rw [heap]
  exact fun k p used => (allocated.known k p used).imp_right fun before =>
    ⟨p, before, fun _ => .inr⟩

/-- A new object that is put on a page of a book takes one slot. -/
theorem HasRoom.paged {pages : Array Value} (room : m.HasRoom (n + 1))
    (allocated : m.Allocated o h m₁) (holds : ∀ k ∈ o.children, m.Reaches k)
    (used : m.heap.get? b = some (.book pages)) (other : h ≠ b) (found : v.handle? = some h)
    (replaced : m₁.Replaced b (.book (pages.push v)) m') : m'.HasRoom n := by
  refine room.next (h := h) (o := o) (replaced.capacity.trans allocated.capacity) ?_ holds ?_ ?_
  · exact (replaced.others h other).trans allocated.object
  · intro k member
    rw [replaced.roots_eq, allocated.roots_eq] at member
    exact .inr (.root member)
  · intro k p there
    by_cases same : k = b
    · subst same
      cases replaced.object.symm.trans there
      refine .inr ⟨_, used, fun c member => ?_⟩
      simpa [Object.children, found, eq_comm, or_comm] using member
    · rw [replaced.others k same] at there
      exact (allocated.known k p there).imp_right fun before => ⟨p, before, fun _ => .inr⟩

/-- An object is refused only where there is no room for it. -/
theorem Refused.no_room (refused : m.Refused o m') (tidy : m.heap.Tidy)
    (holds : ∀ k ∈ o.children, m.Reaches k) : ¬ m.HasRoom 1 := by
  have all : ∀ i < m.heap.capacity, m.heap.Reachable m.roots ⟨i⟩ := fun i inside =>
    Reaches.reachable holds (refused.full i inside)
  have full := (Rooted.start tidy).full all
  unfold HasRoom
  simp only [List.length_nil] at full
  omega

end Machine

namespace Run

variable {m : Machine} {o : Object}

/-- Where the roots do not lead to every slot, an object without children is allocated. -/
theorem allocate_adds (env : Env) (tidy : m.heap.Tidy) (room : m.HasRoom 1)
    (childless : o.children = []) :
    ∃ h m', allocate o env m = .ok h m' ∧ m.Allocated o h m' := by
  rcases allocate_cases tidy o env with made | ⟨m', _, refused⟩
  · exact made
  · exact absurd room (refused.no_room tidy (by simp [childless]))

theorem newText_adds (env : Env) (tidy : m.heap.Tidy) (room : m.HasRoom 1) (content : String) :
    ∃ t m', newText content env m = .ok (.text t) m' ∧ m.Allocated (.text content) t m' := by
  obtain ⟨t, m', made, added⟩ := allocate_adds env tidy room (o := .text content) rfl
  exact ⟨t, m', bind_ok made, added⟩

end Run

end JourneyMachine
