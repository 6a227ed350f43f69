import JourneyMachine.Proofs.Containers.Dictionary
import JourneyMachine.Proofs.Containers.Pages
import JourneyMachine.Proofs.Containers.Room
import JourneyMachine.Proofs.Control.Restoration

/-! Histories of a codex. Between its making and any later time the codex is assigned to, removed
from, read, counted and listed, in any order; in between, everything else may happen to the machine
as long as the codex stays rooted when there are collections. All along it is the dictionary that
the same operations make of the empty one. -/

namespace JourneyMachine

namespace Heap

variable {heap old new : Heap} {roots : List Handle} {h b : Handle} {page : Value} {k : Key}
  {e : Key × Value} {d : Dictionary} {pages : Array Value}

/-- A page that is a book of a key and its value. -/
def Pair (heap : Heap) (page : Value) (e : Key × Value) : Prop :=
  ∃ p key, page = .book p ∧ heap.get? p = some (.book #[key, e.2]) ∧ heap.keyOf? key = some e.1

def Lists (heap : Heap) (b : Handle) (d : Dictionary) : Prop :=
  ∃ pages, heap.get? b = some (.book pages) ∧ List.Forall₂ heap.Pair pages.toList d

theorem Pair.kept (pair : old.Pair page e)
    (kept : ∀ p o, page = .book p → old.get? p = some o → new.get? p = some o ∧
      ∀ t content, t ∈ o.children → old.get? t = some (.text content) →
        new.get? t = old.get? t) : new.Pair page e := by
  obtain ⟨p, key, same, used, known⟩ := pair
  obtain ⟨still, texts⟩ := kept p _ same used
  refine ⟨p, key, same, still, keyOf?_kept known fun t content text there => ?_⟩
  apply texts t content _ there
  rw [Object.children_eq]
  exact List.mem_filterMap.mpr ⟨key, by simp [Object.links], by simp [text, Value.handle?]⟩

theorem Pair.retained (pair : old.Pair page e) (retains : old.Retains roots new)
    (rooted : ∀ p, page = .book p → old.Reachable roots p) : new.Pair page e := by
  apply pair.kept
  intro p o same used
  constructor
  · exact (retains.kept p (rooted p same)).trans used
  · exact fun t content child there => retains.kept t (.child (rooted p same) used child there)

end Heap

namespace Run

variable {env : Env} {m m' : Machine} {h b p : Handle} {entries pairs : List (Value × Value)}
  {d done rest : Dictionary} {a v : Value} {k : Key}

/-- While a codex is listed, it is rooted with the book, and the book has the entries that are done. -/
structure Listing (h b : Handle) (entries : List (Value × Value)) (d : Dictionary)
    (pairs : List (Value × Value)) (done rest : Dictionary) (m : Machine) : Prop where
  tidy : m.heap.Tidy
  rooted : h ∈ m.roots
  target : b ∈ m.roots
  used : m.heap.get? h = some (.codex entries)
  files : List.Forall₂ m.heap.Files entries d
  left : List.Forall₂ m.heap.Files pairs rest
  sub : ∀ pair ∈ pairs, pair ∈ entries
  pages : ∃ pages, m.heap.get? b = some (.book pages) ∧
    List.Forall₂ (fun page e => m.heap.Pair page e ∧ page ≠ .book b) pages.toList done

theorem Listing.retained (listing : Listing h b entries d pairs done rest m)
    (retains : m.heap.Retains m.roots m'.heap) (roots : m'.roots = m.roots) :
    Listing h b entries d pairs done rest m' := by
  have rooted : m.heap.Reachable m.roots h := .root listing.rooted listing.used
  obtain ⟨pages, there, listed⟩ := listing.pages
  have target : m.heap.Reachable m.roots b := .root listing.target there
  have files : ∀ pairs d, (∀ pair ∈ pairs, pair ∈ entries) → List.Forall₂ m.heap.Files pairs d →
      List.Forall₂ m'.heap.Files pairs d := by
    intro pairs d sub files
    rw [List.forall₂_iff_get] at files ⊢
    exact ⟨files.1, fun i left right => (files.2 i left right).retained retains rooted
      listing.used (sub _ (List.get_mem _ _))⟩
  constructor
  case tidy => exact retains.tidy
  case rooted => exact roots ▸ listing.rooted
  case target => exact roots ▸ listing.target
  case used => exact (retains.kept h rooted).trans listing.used
  case files => exact files entries d (fun _ member => member) listing.files
  case left => exact files pairs rest listing.sub listing.left
  case sub => exact listing.sub
  case pages =>
    refine ⟨pages, (retains.kept b target).trans there, ?_⟩
    rw [List.forall₂_iff_get] at listed ⊢
    refine ⟨listed.1, fun i left right => ?_⟩
    obtain ⟨pair, other⟩ := listed.2 i left right
    refine ⟨pair.retained retains fun p same => ?_, other⟩
    obtain ⟨p', key, equal, used, _⟩ := pair
    cases same.symm.trans equal
    refine .child target there ?_ used
    rw [Object.children_eq]
    exact List.mem_filterMap.mpr ⟨_, List.get_mem pages.toList ⟨i, left⟩, by rw [same]; rfl⟩

/-- The next entry is listed. -/
theorem Listing.pushed {pages : Array Value}
    (listing : Listing h b entries d ((a, v) :: pairs) done ((k, v) :: rest) m)
    (made : m.heap.get? p = some (.book #[a, v])) (other : p ≠ b)
    (there : m.heap.get? b = some (.book pages)) :
    ∃ m', editBook b (·.push (.book p)) env m = .ok () m' ∧
      m.Replaced b (.book (pages.push (.book p))) m' ∧
      Listing h b entries d pairs (done ++ [(k, v)]) rest m' := by
  obtain ⟨_, same, listed⟩ := listing.pages
  cases there.symm.trans same
  obtain ⟨m', stored, edited⟩ : ∃ m', editBook b (·.push (.book p)) env m = .ok () m' ∧ _ :=
    editBook_ok there
  -- Only the book changes; texts, keys and the pages that are books of their own do not.
  have texts : ∀ t content, m.heap.get? t = some (.text content) →
      m'.heap.get? t = m.heap.get? t := by
    intro t content text
    apply edited.others
    rintro rfl
    cases there.symm.trans text
  have files : ∀ {entry e}, m.heap.Files entry e → m'.heap.Files entry e := by
    rintro entry e ⟨known, value⟩
    exact ⟨Heap.keyOf?_kept known fun t content _ => texts t content, value⟩
  have pair : ∀ {page e}, m.heap.Pair page e ∧ page ≠ .book b →
      m'.heap.Pair page e ∧ page ≠ .book b := by
    rintro page e ⟨pair, apart⟩
    refine ⟨pair.kept fun q o same used => ⟨?_, fun t content _ => texts t content⟩, apart⟩
    rw [edited.others q fun equal => apart (by rw [same, equal]), used]
  obtain ⟨filed, left⟩ := List.forall₂_cons.mp listing.left
  refine ⟨m', stored, edited, ?_⟩
  constructor
  case tidy => exact edited.tidy listing.tidy
  case rooted => exact edited.roots_eq ▸ listing.rooted
  case target => exact edited.roots_eq ▸ listing.target
  case used =>
    rw [edited.others h, listing.used]
    rintro rfl
    cases there.symm.trans listing.used
  case files => exact listing.files.imp fun _ _ => files
  case left => exact left.imp fun _ _ => files
  case sub => exact fun e member => listing.sub e (List.mem_cons_of_mem _ member)
  case pages =>
    refine ⟨_, edited.object, ?_⟩
    rw [Array.toList_push]
    apply List.rel_append (listed.imp fun _ _ => pair)
    refine .cons ⟨⟨p, a, rfl, ?_, (files filed).1⟩, by simpa using other⟩ .nil
    rw [edited.others p other, made]

theorem Listing.represents (listing : Listing h b entries d pairs done rest m)
    (unique : d.keys.Nodup) : m.heap.Represents h d :=
  ⟨⟨entries, listing.used, listing.files⟩, unique⟩

/-- The key and the value of an entry that is left are held by the codex. -/
theorem Listing.reaches (listing : Listing h b entries d ((a, v) :: pairs) done rest m) :
    ∀ k ∈ (Object.book #[a, v]).children, m.Reaches k := by
  intro k member
  apply Machine.Reaches.child (.root listing.rooted listing.used) listing.used
  rw [Object.children_eq] at member ⊢
  obtain ⟨w, part, found⟩ := List.mem_filterMap.mp member
  have entry : (a, v) ∈ entries := listing.sub _ (List.mem_cons_self ..)
  exact List.mem_filterMap.mpr ⟨w, Object.links_entry entry (by simpa [Object.links] using part), found⟩

/-- The entries that are left are listed one after the other, unless there is no room for a book for
each of them. -/
theorem pushPairs_lists (unique : d.keys.Nodup)
    (listing : Listing h b entries d pairs done rest m) (env : Env) :
    (∃ m', pushPairs b pairs env m = .ok () m' ∧ Listing h b entries d [] (done ++ rest) [] m') ∨
    ¬ m.HasRoom pairs.length ∧ ∃ m', pushPairs b pairs env m = .error .thrown m' ∧
      m'.handlers.exception = .imitation m.builtins.heapExhausted ∧ m'.heap.Tidy ∧
      m'.heap.Represents h d := by
  -- On the entries that are left to be listed: each takes a book, for which there may be no room.
  induction pairs generalizing done rest m with
  | nil =>
    cases List.forall₂_nil_left_iff.mp listing.left
    rw [List.append_nil]
    exact .inl ⟨m, rfl, listing⟩
  | cons pair pairs ih =>
    obtain ⟨a, v⟩ := pair
    obtain ⟨⟨k, w⟩, later, filed, _, rfl⟩ := List.forall₂_cons_left_iff.mp listing.left
    cases filed.2
    rcases allocate_cases listing.tidy (.book #[a, v]) env with
      ⟨p, m₁, made, allocated⟩ | ⟨m', full, refused⟩
    · have retains := allocated.retains.mono fun _ => List.mem_append_left _
      have kept := listing.retained retains allocated.roots_eq
      obtain ⟨pages, there, _⟩ := listing.pages
      have rooted : m.heap.Reachable m.roots b := .root listing.target there
      have other : p ≠ b := (allocated.fresh_of_reachable rooted).symm
      obtain ⟨m₂, stored, replaced, listed⟩ :
          ∃ m₂, editBook b (·.push (.book p)) env m₁ = .ok () m₂ ∧ _ :=
        kept.pushed allocated.object other ((retains.kept b rooted).trans there)
      have rest : pushPairs b ((a, v) :: pairs) env m = pushPairs b pairs env m₂ :=
        (bind_ok (bind_ok made)).trans (bind_ok stored)
      rw [rest]
      rcases ih listed with ⟨m', ended, all⟩ | ⟨full, m', failed, exception, still⟩
      · left
        rw [List.append_assoc] at all
        exact ⟨m', ended, all⟩
      · right
        refine ⟨fun room => full ?_, m', failed, ?_, still⟩
        · exact room.paged allocated listing.reaches there other rfl replaced
        · rw [exception, replaced.outside, allocated.outside]
    · right
      refine ⟨fun room => ?_, m', bind_error (bind_error full), refused.exception,
        refused.retains.tidy, ?_⟩
      · exact refused.no_room listing.tidy listing.reaches (room.mono (by simp))
      · exact (listing.represents unique).retained refused.retains
          (.root listing.rooted listing.used)

theorem withPinned_thrown {α : Type} {values : List Value} {c : Run α}
    (failed : c env (m.pin values) = .error .thrown m') :
    withPinned values c env m = .error .thrown (m'.unpin m.pinned.length) := by
  rw [withPinned_eq, failed]
  rfl

/-- A new book for the list of a codex that is rooted. -/
theorem Listing.start {m₁ : Machine} (represents : m.heap.Represents h d)
    (used : m.heap.get? h = some (.codex entries)) (rooted : m.heap.Reachable m.roots h)
    (allocated : m.Allocated (.book #[]) b m₁) :
    Listing h b entries d entries [] d (m₁.pin [.codex h, .book b]) := by
  have retains : m.heap.Retains m.roots m₁.heap :=
    allocated.retains.mono fun _ => List.mem_append_left _
  obtain ⟨⟨entries', still, files⟩, _⟩ := represents.retained retains rooted
  cases ((retains.kept h rooted).trans used).symm.trans still
  constructor
  case tidy => exact retains.tidy
  case rooted => exact mem_roots_pin.mpr (.inr ⟨.codex h, by simp, rfl⟩)
  case target => exact mem_roots_pin.mpr (.inr ⟨.book b, by simp, rfl⟩)
  case used => exact still
  case files => exact files
  case left => exact files
  case sub => exact fun _ member => member
  case pages => exact ⟨#[], allocated.object, .nil⟩

/-- The codex was rooted before, so pinning it and the new book takes one slot. -/
theorem Listing.room {m₁ : Machine} {n : Nat} (room : m.HasRoom (n + 1))
    (rooted : m.heap.Reachable m.roots h) (allocated : m.Allocated (.book #[]) b m₁) :
    (m₁.pin [.codex h, .book b]).HasRoom n := by
  refine room.allocated allocated (by simp [Object.children]) rfl fun k member => ?_
  rw [mem_roots_pin, allocated.roots_eq] at member
  rcases member with old | ⟨w, part, found⟩
  · exact .inr (.root old)
  · rcases List.mem_pair.mp part with rfl | rfl
    · cases found
      exact .inr fun _ _ => rooted
    · exact .inl (Option.some.inj found).symm

/-- Listing a codex that is rooted gives a book of its entries. It throws only if there is no room
for that book and one for each entry. -/
theorem toBook_lists (tidy : m.heap.Tidy) (represents : m.heap.Represents h d)
    (rooted : m.heap.Reachable m.roots h) (env : Env) :
    (∃ b m', toBook (.codex h) env m = .ok (.book b) m' ∧ m'.heap.Lists b d ∧
      m'.heap.Tidy ∧ m'.heap.Represents h d) ∨
    ¬ m.HasRoom (d.length + 1) ∧ ∃ m', toBook (.codex h) env m = .error .thrown m' ∧
      m'.handlers.exception = .imitation m.builtins.heapExhausted ∧ m'.heap.Tidy ∧
      m'.heap.Represents h d := by
  obtain ⟨entries, used, files⟩ := represents.entries
  rcases allocate_cases tidy (.book #[]) env with ⟨b, m₁, made, allocated⟩ | ⟨m', full, refused⟩
  · have begun : toBook (.codex h) env m = withPinned [.codex h, .book b] (do
        pushPairs b entries
        return .book b) env m₁ := (bind_ok (read_codex used)).trans (bind_ok made)
    rw [begun]
    rcases pushPairs_lists represents.2 (.start represents used rooted allocated) env with
      ⟨m₂, listed, listing⟩ | ⟨full, m₂, failed, exception, still⟩
    · left
      obtain ⟨pages, there, pairs⟩ := listing.pages
      exact ⟨b, m₂.unpin m₁.pinned.length, (withPinned_eq_ok).mpr ⟨m₂, bind_ok listed, rfl⟩,
        ⟨pages, there, pairs.imp fun _ _ => And.left⟩, listing.tidy, listing.represents represents.2⟩
    · right
      refine ⟨fun room => full ?_, m₂.unpin m₁.pinned.length,
        withPinned_thrown (bind_error failed), ?_, still⟩
      · exact Listing.room (files.length_eq ▸ room) rooted allocated
      · show m₂.handlers.exception = _
        rw [exception]
        show Value.imitation m₁.builtins.heapExhausted = _
        rw [allocated.outside]
  · right
    refine ⟨fun room => ?_, m', (bind_ok (read_codex used)).trans (bind_error full),
      refused.exception, refused.retains.tidy, represents.retained refused.retains rooted⟩
    exact refused.no_room tidy (by simp [Object.children]) (room.mono (by omega))

/-- Keys of texts stay known while another object changes that is no text. -/
theorem Changes.keyOf? (changes : Changes m h d m') (used : m.heap.get? h = some (.codex entries))
    {key : Value} (known : m.heap.keyOf? key = some k) : m'.heap.keyOf? key = some k := by
  apply Heap.keyOf?_kept known
  intro t content same there
  apply changes.others
  rintro rfl
  cases used.symm.trans there

end Run

def Heap.store (heap : Heap) (d : Dictionary) (entry : Value × Value) : Dictionary :=
  match heap.keyOf? entry.1 with
  | some k => d.assign k entry.2
  | none => d

/-- The dictionary of entries of which later ones replace earlier ones of the same key. -/
def Heap.dictionary (heap : Heap) (entries : List (Value × Value)) : Dictionary :=
  entries.foldl heap.store []

namespace Run

variable {env : Env} {m m' : Machine} {h b p : Handle} {entries pairs : List (Value × Value)}
  {d done rest : Dictionary} {a v : Value} {k : Key}

/-- Entries that are stored one after the other are assigned one after the other. -/
theorem codexInsertAll_stores (represents : m.heap.Represents h d)
    (keys : ∀ entry ∈ pairs, (m.heap.keyOf? entry.1).isSome) (env : Env) :
    ∃ m', codexInsertAll h pairs env m = .ok () m' ∧
      Changes m h (pairs.foldl m.heap.store d) m' := by
  -- On the pairs: storing one leaves the texts of the other keys alone.
  induction pairs generalizing d m with
  | nil => exact ⟨m, rfl, represents, fun _ _ => rfl, id⟩
  | cons pair pairs ih =>
    obtain ⟨key, value⟩ := pair
    obtain ⟨k, known⟩ := Option.isSome_iff_exists.mp (keys _ (List.mem_cons_self ..))
    obtain ⟨m₁, stored, changes⟩ := codexInsert_assigns represents known value env
    obtain ⟨entries, used, _⟩ := represents.entries
    have same : ∀ entry ∈ pairs, m₁.heap.keyOf? entry.1 = m.heap.keyOf? entry.1 := by
      intro entry member
      obtain ⟨l, seen⟩ := Option.isSome_iff_exists.mp (keys _ (List.mem_cons_of_mem _ member))
      rw [seen, changes.keyOf? used seen]
    have stores : ∀ d, pairs.foldl m₁.heap.store d = pairs.foldl m.heap.store d := by
      intro d
      apply List.foldl_ext
      intro d entry member
      simp only [Heap.store, same entry member]
    obtain ⟨m', all, later⟩ := ih changes.represents fun entry member => by
      rw [same entry member]
      exact keys _ (List.mem_cons_of_mem _ member)
    apply Exists.intro m'
    constructor
    · exact (bind_ok stored).trans all
    · rw [stores] at later
      constructor
      case represents => simpa [Heap.store, known] using later.represents
      case others => exact fun j other => (later.others j other).trans (changes.others j other)
      case tidy => exact fun tidy => later.tidy (changes.tidy tidy)

/-- A codex is made of its entries. It is refused only if there is no room for it beside them. -/
theorem newCodex_represents (tidy : m.heap.Tidy)
    (keys : ∀ entry ∈ entries, (m.heap.keyOf? entry.1).isSome) (env : Env) :
    (∃ h m', newCodex entries env m = .ok (.codex h) m' ∧ m'.heap.Tidy ∧
      m'.heap.Represents h (m.heap.dictionary entries)) ∨
    ¬ (m.pin (entries.flatMap fun e => [e.1, e.2])).HasRoom 1 ∧
      ∃ m', newCodex entries env m = .error .thrown m' ∧
        m'.handlers.exception = .imitation m.builtins.heapExhausted ∧ m'.heap.Tidy := by
  let pins := entries.flatMap fun e => [e.1, e.2]
  have calm : (m.pin pins).heap.Tidy := tidy
  rcases allocate_cases calm (.codex []) env with ⟨h, m₁, made, allocated⟩ | ⟨m₁, full, refused⟩
  · have placed : withPinned pins (allocate (.codex [])) env m =
        .ok h (m₁.unpin m.pinned.length) := (withPinned_eq_ok).mpr ⟨m₁, made, rfl⟩
    let start := (m₁.unpin m.pinned.length).pin [.codex h]
    -- The keys are pinned, so the allocation leaves their texts alone.
    have same : ∀ entry ∈ entries, start.heap.keyOf? entry.1 = m.heap.keyOf? entry.1 := by
      intro entry member
      obtain ⟨k, known⟩ := Option.isSome_iff_exists.mp (keys entry member)
      rw [known]
      apply Heap.keyOf?_retained allocated.retains known
      intro t text
      obtain ⟨content, used, _⟩ := Heap.keyOf?_text (text ▸ known)
      have pinned : t ∈ (m.pin pins).roots := by
        refine mem_roots_pin.mpr (.inr ⟨entry.1, ?_, by rw [text]; rfl⟩)
        exact List.mem_flatMap.mpr ⟨entry, member, by simp⟩
      exact .root (List.mem_append_left _ pinned) used
    have empty : start.heap.Represents h [] := ⟨⟨[], allocated.object, .nil⟩, List.nodup_nil⟩
    obtain ⟨m', stored, changes⟩ := codexInsertAll_stores empty
      (fun entry member => (same entry member).symm ▸ keys entry member) env
    have ended : newCodex entries env m =
        .ok (.codex h) (m'.unpin (m₁.unpin m.pinned.length).pinned.length) :=
      (bind_ok placed).trans ((withPinned_eq_ok).mpr ⟨m', bind_ok stored, rfl⟩)
    have stores : entries.foldl start.heap.store [] = m.heap.dictionary entries := by
      apply List.foldl_ext
      intro d entry member
      simp only [Heap.store, same entry member]
    left
    refine ⟨h, _, ended, changes.tidy allocated.retains.tidy, ?_⟩
    rw [← stores]
    exact changes.represents
  · right
    exact ⟨refused.no_room calm (by simp [Object.children]), _,
      bind_error (withPinned_thrown full), refused.exception, refused.retains.tidy⟩

end Run

/-- What a program does with a codex. -/
inductive Deed where
  | assign (key value : Value)
  | remove (key : Value)
  | look (key : Value)
  | count
  | list

namespace Deed

/-- A key that is stored is one of those that a codex may have; a key that is looked up may be any
value that is there. -/
def Allowed (heap : Heap) : Deed → Prop
  | assign key _ => (heap.keyOf? key).isSome
  | remove key | look key => (heap.nameOf? key).isSome
  | count | list => True

def run (h : Handle) : Deed → Run Value
  | assign key value => do
    Run.indexAssign (.codex h) key value
    return .ni
  | remove key => Run.delete (.codex h) key
  | look key => Run.index (.codex h) key
  | count => return .numeral (← Run.length (.codex h))
  | list => Run.toBook (.codex h)

def perform (heap : Heap) (d : Dictionary) : Deed → Dictionary
  | assign key value => heap.store d (key, value)
  | remove key => ((heap.nameOf? key).map d.remove).getD d
  | look _ | count | list => d

def Answers (before after : Heap) (d : Dictionary) (v : Value) : Deed → Prop
  | assign _ _ => v = .ni
  | remove key | look key => v = ((before.nameOf? key).bind d.find?).getD .ni
  | count => ∃ n, v = .numeral n ∧ n = Int64.ofNat d.length ∧
      (d.length < 2 ^ 63 → n.toInt = d.length)
  | list => ∃ b, v = .book b ∧ after.Lists b d

variable {env : Env} {m : Machine} {h : Handle} {d : Dictionary} {deed : Deed}

/-- A deed with a codex is the deed with its dictionary. Only a list may be refused, and only if
there is no room for its books. -/
theorem run_performs (tidy : m.heap.Tidy) (represents : m.heap.Represents h d)
    (allowed : deed.Allowed m.heap) (rooted : deed = .list → m.heap.Reachable m.roots h)
    (env : Env) :
    (∃ v m', deed.run h env m = .ok v m' ∧ deed.Answers m.heap m'.heap d v ∧ m'.heap.Tidy ∧
      m'.heap.Represents h (deed.perform m.heap d)) ∨
    deed = .list ∧ ¬ m.HasRoom (d.length + 1) ∧ ∃ m', deed.run h env m = .error .thrown m' ∧
      m'.handlers.exception = .imitation m.builtins.heapExhausted ∧ m'.heap.Tidy ∧
      m'.heap.Represents h d := by
  cases deed with
  | assign key value =>
    obtain ⟨k, known⟩ := Option.isSome_iff_exists.mp allowed
    obtain ⟨m', stored, changes⟩ := Run.codexInsert_assigns represents known value env
    left
    refine ⟨.ni, m', Run.bind_ok stored, rfl, changes.tidy tidy, ?_⟩
    simpa [perform, Heap.store, known] using changes.represents
  | remove key =>
    obtain ⟨k, known⟩ := Option.isSome_iff_exists.mp allowed
    obtain ⟨m', removed, changes⟩ := Run.codexRemove_removes represents known env
    left
    refine ⟨_, m', Run.bind_ok removed, ?_, changes.tidy tidy, ?_⟩
    · simp [Answers, known]
    · simpa [perform, known] using changes.represents
  | look key =>
    obtain ⟨k, known⟩ := Option.isSome_iff_exists.mp allowed
    left
    refine ⟨_, m, Run.bind_ok (Run.codexLookup_finds represents known env), ?_, tidy, represents⟩
    simp [Answers, known]
  | count =>
    obtain ⟨entries, used, files⟩ := represents.entries
    have counted : Run.length (.codex h) env m = .ok (Int64.ofNat entries.length) m :=
      Run.bind_ok (Run.read_codex used)
    rw [files.length_eq] at counted
    left
    refine ⟨_, m, Run.bind_ok counted, ⟨_, rfl, rfl, fun small => ?_⟩, tidy, represents⟩
    exact Int64.toInt_ofNat_of_lt small
  | list =>
    rcases Run.toBook_lists tidy represents (rooted rfl) env with
      ⟨b, m', made, lists, still, kept⟩ | refused
    · exact .inl ⟨.book b, m', made, ⟨b, rfl, lists⟩, still, kept⟩
    · exact .inr ⟨rfl, refused⟩

end Deed

/-- A codex and its dictionary, from its making on. Other code may change other objects, except that
texts are never changed, and may run the collector or allocate while the codex is rooted. -/
inductive History (h : Handle) : Heap → Dictionary → Prop where
  | made {env : Env} {m m' : Machine} {entries : List (Value × Value)} : m.heap.Tidy →
      (∀ entry ∈ entries, (m.heap.keyOf? entry.1).isSome) →
      Run.newCodex entries env m = .ok (.codex h) m' →
      History h m'.heap (m.heap.dictionary entries)
  | did {env : Env} {m m' : Machine} {d : Dictionary} {deed : Deed} {v : Value} :
      History h m.heap d → deed.Allowed m.heap →
      (deed = .list → m.heap.Reachable m.roots h) → deed.run h env m = .ok v m' →
      History h m'.heap (deed.perform m.heap d)
  | refused {env : Env} {m m' : Machine} {d : Dictionary} : History h m.heap d →
      m.heap.Reachable m.roots h → Run.toBook (.codex h) env m = .error .thrown m' →
      History h m'.heap d
  | collected {heap : Heap} {roots : List Handle} {d : Dictionary} : History h heap d →
      heap.Reachable roots h → History h (heap.collect roots).2 d
  | allocated {heap : Heap} {roots : List Handle} {d : Dictionary} {o : Object} :
      History h heap d → heap.Reachable roots h → History h (heap.allocate o roots).2 d
  | edited {heap : Heap} {j : Handle} {d : Dictionary} {f : Object → Object} :
      History h heap d → j ≠ h → (∀ content, heap.get? j ≠ some (.text content)) →
      History h (heap.modify j f) d

theorem History.represents {h : Handle} {heap : Heap} {d : Dictionary} (history : History h heap d) :
    heap.Tidy ∧ heap.Represents h d := by
  induction history with
  | @made env m m' entries tidy keys made =>
    rcases Run.newCodex_represents tidy keys env with
      ⟨h', m'', same, still, represents⟩ | ⟨_, m'', failed, _⟩
    · rw [made] at same
      cases same
      exact ⟨still, represents⟩
    · cases made.symm.trans failed
  | @did env m m' d deed v history allowed rooted done ih =>
    rcases Deed.run_performs ih.1 ih.2 allowed rooted env with
      ⟨v', m'', same, _, still, represents⟩ | ⟨_, _, m'', failed, _⟩
    · rw [done] at same
      cases same
      exact ⟨still, represents⟩
    · cases done.symm.trans failed
  | @refused env m m' d history rooted failed ih =>
    rcases Run.toBook_lists ih.1 ih.2 rooted env with
      ⟨b, m'', done, _⟩ | ⟨_, m'', same, _, still, represents⟩
    · cases failed.symm.trans done
    · rw [failed] at same
      cases same
      exact ⟨still, represents⟩
  | collected history rooted ih =>
    exact ⟨ih.1.retains_collect.tidy, ih.2.retained ih.1.retains_collect rooted⟩
  | @allocated heap roots d o history rooted ih =>
    have retains : heap.Retains (roots ++ o.children) (heap.allocate o roots).2 :=
      (ih.1.retains_allocate o rfl).1
    exact ⟨retains.tidy, ih.2.retained retains (rooted.mono fun _ => List.mem_append_left _)⟩
  | @edited heap j d f history other texts ih =>
    refine ⟨ih.1.modify j f, ih.2.edited other texts fun k differs => ?_⟩
    rw [Heap.get?_modify, if_neg differs]

/-- The keys of a codex are pairwise unequal. -/
theorem Heap.Represents.unequal {m : Machine} {h : Handle} {d : Dictionary}
    (represents : m.heap.Represents h d) : ∃ entries, m.heap.get? h = some (.codex entries) ∧
      entries.Pairwise fun a b => ∀ env, Run.eql a.1 b.1 env m = .ok false m := by
  obtain ⟨⟨entries, used, files⟩, unique⟩ := represents
  refine ⟨entries, used, List.pairwise_iff_getElem.mpr fun i j left right before env => ?_⟩
  have aside : i < d.length := files.length_eq ▸ left
  have later : j < d.length := files.length_eq ▸ right
  have differ : d[i].1 ≠ d[j].1 := by
    have apart := List.pairwise_iff_getElem.mp unique i j
    simp only [Dictionary.keys, List.length_map, List.getElem_map] at apart
    exact apart aside later before
  have first : m.heap.Files entries[i] d[i] := files.get left aside
  have second : m.heap.Files entries[j] d[j] := files.get right later
  rw [Run.eql_keys first.1 (Heap.nameOf?_of_keyOf? second.1), decide_eq_false differ]

/-- A codex whose keys are scalars, texts, forms or journeys is a map in the order of insertion.
A new codex is the map of its entries; along every history of it its keys are pairwise unequal and
each operation does and answers what it does and answers for the map. A new codex is refused only if
its keys and values and the roots lead to every slot, and a list only if the roots leave no room for
its book and the books of its entries; both throw what is set aside for a full heap. -/
theorem Machine.codex_is_map (m : Machine) :
    (∀ entries env, m.heap.Tidy → (∀ entry ∈ entries, (m.heap.keyOf? entry.1).isSome) →
      (∃ h m', Run.newCodex entries env m = .ok (.codex h) m' ∧
        History h m'.heap (m.heap.dictionary entries)) ∨
      ¬ (m.pin (entries.flatMap fun e => [e.1, e.2])).HasRoom 1 ∧
        ∃ m', Run.newCodex entries env m = .error .thrown m' ∧
          m'.handlers.exception = .imitation m.builtins.heapExhausted) ∧
    ∀ h d, History h m.heap d →
      m.heap.Represents h d ∧
      (∃ entries, m.heap.get? h = some (.codex entries) ∧
        entries.Pairwise fun a b => ∀ env, Run.eql a.1 b.1 env m = .ok false m) ∧
      ∀ deed : Deed, deed.Allowed m.heap → (deed = .list → m.heap.Reachable m.roots h) → ∀ env,
        (∃ v m', deed.run h env m = .ok v m' ∧ deed.Answers m.heap m'.heap d v ∧
          History h m'.heap (deed.perform m.heap d)) ∨
        deed = .list ∧ ¬ m.HasRoom (d.length + 1) ∧
          ∃ m', deed.run h env m = .error .thrown m' ∧
            m'.handlers.exception = .imitation m.builtins.heapExhausted ∧
            History h m'.heap d := by
  constructor
  · intro entries env tidy keys
    rcases Run.newCodex_represents tidy keys env with
      ⟨h, m', made, _⟩ | ⟨full, m', failed, exception, _⟩
    · exact .inl ⟨h, m', made, .made tidy keys made⟩
    · exact .inr ⟨full, m', failed, exception⟩
  · intro h d history
    obtain ⟨tidy, represents⟩ := history.represents
    refine ⟨represents, represents.unequal, fun deed allowed rooted env => ?_⟩
    rcases Deed.run_performs tidy represents allowed rooted env with
      ⟨v, m', done, answers, _⟩ | ⟨rfl, full, m', failed, exception, _⟩
    · exact .inl ⟨v, m', done, answers, .did history allowed rooted done⟩
    · exact .inr ⟨rfl, full, m', failed, exception, .refused history (rooted rfl) failed⟩

/-- Two texts that are spelled the same, and a book that is not rooted. -/
def twins : Machine := Run.bare [.text "one", .text "one", .book #[]]

def twinEntries : List (Value × Value) := [(.text ⟨0⟩, .numeral 1), (.text ⟨1⟩, .numeral 2)]

theorem twins_dictionary :
    twins.heap.dictionary twinEntries = [(.spelled "one", .numeral 2)] := by decide +kernel

theorem twins_named : (match Run.newCodex twinEntries (Machine.calling 0) twins with
    | .ok _ m' => decide (m'.heap.nameOf? (.text ⟨0⟩) = some (.spelled "one"))
    | .error _ _ => false) = true := by decide +kernel

/-- The codex of the two has one entry, with the later value, which either text removes. -/
theorem twins_mapped : twins.heap.Tidy ∧ ∃ h m',
    Run.newCodex twinEntries (Machine.calling 0) twins = .ok (.codex h) m' ∧
    m'.heap.Represents h [(.spelled "one", .numeral 2)] ∧
    ∃ m'', Run.delete (.codex h) (.text ⟨0⟩) (Machine.calling 0) m' = .ok (.numeral 2) m'' ∧
      m''.heap.Represents h [] := by
  have tidy : twins.heap.Tidy := Run.bare_tidy _
  have room := twins_named
  apply And.intro tidy
  obtain ⟨makes, _⟩ := Machine.codex_is_map twins
  rcases makes twinEntries (Machine.calling 0) tidy (by decide) with
    ⟨h, m', made, history⟩ | ⟨_, m', full, _⟩
  · rw [twins_dictionary] at history
    rw [made] at room
    have named := of_decide_eq_true room
    obtain ⟨represents, _, performs⟩ := (Machine.codex_is_map m').2 h _ history
    refine ⟨h, m', made, represents, ?_⟩
    rcases performs (.remove (.text ⟨0⟩)) (by simp [Deed.Allowed, named]) (by simp)
      (Machine.calling 0) with ⟨v, m'', removed, answers, later⟩ | ⟨other, _⟩
    · simp only [Deed.Answers, named] at answers
      obtain ⟨gone, _⟩ := (Machine.codex_is_map m'').2 h _ later
      simp only [Deed.perform, named] at gone
      cases answers
      exact ⟨m'', removed, gone⟩
    · cases other
  · rw [full] at room
    cases room

end JourneyMachine
