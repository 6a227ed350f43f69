import JourneyMachine.Proofs.Texts.Characters

/-! Arabic numerals are read back. The digits are counted up to the greatest numeral and the sign is
put before the result, so that the least numeral, whose digits come to one more, is read as the one
after it. -/

namespace JourneyMachine

namespace Numeral

variable {rest blank : List Char} {c : Char} {m : Machine} {env : Env}

section Digits

/-- Digits that are cut off at the greatest numeral after each one are cut off at the end. -/
theorem foldl_cut (digits : List Char) (value : Nat) :
    digits.foldl (fun value c => min (value * 10 + (c.toNat - '0'.toNat)) greatest)
      (min value greatest) = min (Nat.ofDigitChars 10 digits value) greatest := by
  induction digits generalizing value with
  | nil => rfl
  | cons c digits ih =>
    have cut : min (min value greatest * 10 + (c.toNat - '0'.toNat)) greatest =
        min (10 * value + (c.toNat - '0'.toNat)) greatest := by omega
    rw [List.foldl_cons, cut, ih, Nat.ofDigitChars_cons]

theorem isDigit_repr (k : Nat) : ∀ c ∈ (Nat.repr k).toList, c.isDigit = true := by
  rw [Nat.toList_repr]
  exact fun c member => Nat.isDigit_of_mem_toDigits (by decide) (by decide) member

theorem takeWhile_repr (k : Nat) (stops : ∀ c ∈ rest.head?, c.isDigit = false) :
    ((Nat.repr k).toList ++ rest).takeWhile Char.isDigit = (Nat.repr k).toList := by
  have none : rest.takeWhile Char.isDigit = [] := by
    cases rest with
    | nil => rfl
    | cons c rest => exact List.takeWhile_cons_of_neg (by simp [stops c rfl])
  rw [List.takeWhile_append_of_pos (isDigit_repr k), none, List.append_nil]

theorem readDecimal_repr (k : Nat) (stops : ∀ c ∈ rest.head?, c.isDigit = false) :
    readDecimal ((Nat.repr k).toList ++ rest) = min k greatest := by
  rw [readDecimal, takeWhile_repr k stops, Nat.toList_repr]
  exact (foldl_cut _ 0).trans (by rw [Nat.ofDigitChars_ten_toDigits])

end Digits

section Parsing

theorem isBlank_digit (digit : c.isDigit = true) : Text.isBlank c = false := by
  obtain ⟨above, below⟩ := Char.isDigit_iff_toNat.mp digit
  have first : '0'.toNat = 48 := rfl
  have last : '9'.toNat = 57 := rfl
  simp [Text.isBlank, Text.inRanges, Text.blankRanges]
  omega

theorem parse_blank (blanks : ∀ c ∈ blank, Text.isBlank c = true) (cs : List Char) :
    parse (String.ofList (blank ++ cs)) = parse (String.ofList cs) := by
  simp only [parse, Text.trimStart, String.toList_ofList, List.dropWhile_append_of_pos blanks]

theorem parse_minus (cs : List Char) :
    parse (String.ofList ('-' :: cs)) = Int64.ofInt (-(readDecimal cs : Int)) := by
  have start : Text.trimStart ('-' :: cs) = '-' :: cs := List.dropWhile_cons_of_neg (by decide)
  have other : '-' ∉ romanLetters := by decide
  rw [parse, String.toList_ofList, start]
  simp only [List.head?_cons, Option.any_some, other, decide_false, Bool.false_eq_true, if_false]

theorem parse_digit (digit : c.isDigit = true) (cs : List Char) :
    parse (String.ofList (c :: cs)) = Int64.ofInt (readDecimal (c :: cs)) := by
  have start : Text.trimStart (c :: cs) = c :: cs :=
    List.dropWhile_cons_of_neg (by simp [isBlank_digit digit])
  have letters : ∀ d ∈ romanLetters, d.isDigit = false := by simp [romanLetters]
  have letter : c ∉ romanLetters := fun member => by simp [letters c member] at digit
  rw [parse, String.toList_ofList, start]
  simp only [List.head?_cons, Option.any_some, letter, decide_false, Bool.false_eq_true, if_false]
  split
  · rename_i same
    rw [(List.cons.inj same).1] at digit
    exact absurd digit (by decide)
  · rename_i same
    rw [(List.cons.inj same).1] at digit
    exact absurd digit (by decide)
  · rfl

def restored (n : Int64) : Int64 := if n = Int64.minValue then n + 1 else n

theorem restored_eq_iff : restored n = n ↔ n ≠ Int64.minValue := by
  unfold restored
  split
  · rename_i least
    exact iff_of_false (by rw [least]; decide) (fun other => other least)
  · rename_i other
    exact iff_of_true rfl other

theorem parse_arabic (n : Int64) (rest : List Char)
    (stops : ∀ c ∈ rest.head?, c.isDigit = false) :
    parse (String.ofList ((arabic n).toList ++ rest)) = restored n := by
  have above := Int64.toInt_lt n
  have below := Int64.le_toInt n
  have least : n = Int64.minValue ↔ n.toInt = -2 ^ 63 := by
    rw [← Int64.toInt_inj]
    rfl
  have read := readDecimal_repr n.toInt.natAbs stops
  -- Only the least numeral has a magnitude that is cut off.
  by_cases negative : n.toInt < 0
  · have signed : (arabic n).toList ++ rest =
        '-' :: ((Nat.repr n.toInt.natAbs).toList ++ rest) := by
      rw [arabic, if_pos negative, String.toList_append]
      rfl
    rw [signed, parse_minus, read, restored]
    split
    · rename_i same
      subst same
      rfl
    · rename_i other
      have whole : min n.toInt.natAbs greatest = n.toInt.natAbs := by
        have inside := mt least.mpr other
        unfold greatest
        omega
      rw [whole, Int.ofNat_natAbs_of_nonpos negative.le, neg_neg, Int64.ofInt_toInt]
  · have unsigned : (arabic n).toList = (Nat.repr n.toInt.natAbs).toList := by
      rw [arabic, if_neg negative]
    -- The first digit decides that no sign and no roman letter is read.
    obtain ⟨c, tail, digits⟩ : ∃ c tail, (Nat.repr n.toInt.natAbs).toList = c :: tail :=
      List.exists_cons_of_ne_nil (by rw [Nat.toList_repr]; exact Nat.toDigits_ne_nil)
    have digit : c.isDigit = true :=
      isDigit_repr n.toInt.natAbs c (by rw [digits]; exact List.mem_cons_self)
    have whole : min n.toInt.natAbs greatest = n.toInt.natAbs := by
      unfold greatest
      omega
    have other : n ≠ Int64.minValue := by
      rintro rfl
      exact negative (by decide)
    rw [digits, List.cons_append] at read
    rw [unsigned, digits, List.cons_append, parse_digit digit, read, whole, restored,
      if_neg other, Int.natAbs_of_nonneg (by omega), Int64.ofInt_toInt]

theorem parse_arabic_self (n : Int64) : parse (arabic n) = restored n := by
  have read := parse_arabic n [] (by simp)
  rwa [List.append_nil, String.ofList_toList] at read

end Parsing

/-- Between white space and what is no digit, and in a text of its own, a numeral is read back
unless it is the least one. -/
theorem arabic_restored (n : Int64) :
    (∀ blank rest : String, (∀ c ∈ blank.toList, Text.isBlank c = true) →
      (∀ c ∈ rest.toList.head?, c.isDigit = false) →
      parse (blank ++ arabic n ++ rest) = restored n) ∧
    (∀ env m, m.heap.Tidy → m.HasRoom 1 → ∃ t m',
      Run.toTextValue (.numeral n) env m = .ok (.text t) m' ∧
      ∀ m₁, m₁.heap.get? t = m'.heap.get? t →
        Run.toNumeral (.text t) env m₁ = .ok (restored n) m₁) ∧
    (restored n = n ↔ n ≠ Int64.minValue) := by
  refine ⟨fun blank rest blanks stops => ?_, fun env m tidy room => ?_, restored_eq_iff⟩
  · have whole : blank ++ arabic n ++ rest =
        String.ofList (blank.toList ++ ((arabic n).toList ++ rest.toList)) := by
      rw [String.append_assoc, ← String.toList_append, ← String.toList_append, String.ofList_toList]
    rw [whole, parse_blank blanks, parse_arabic n rest.toList stops]
  · obtain ⟨t, m', made, added⟩ := Run.newText_adds env tidy room (arabic n)
    have shown : Run.toText (.numeral n) env m = .ok (arabic n) m := by
      have own : ∀ room, Run.textWithin room [] (.numeral n) env m = .ok (arabic n) m := by
        intro room
        cases room <;> rfl
      exact own m.heap.capacity
    refine ⟨t, m', (Run.bind_ok shown).trans made, fun m₁ kept => ?_⟩
    refine (Run.bind_ok (Run.read_text (kept.trans added.object))).trans ?_
    rw [parse_arabic_self]
    rfl

/-- Seventeen below zero is read back between a tab and a letter, and in a full heap that has to be
collected for its text. -/
theorem arabic_between :
    parse ("\t" ++ arabic (-17) ++ "d") = -17 ∧ Run.ribbon.HasRoom 1 ∧ ∀ env, ∃ t m',
      Run.toTextValue (.numeral (-17)) env Run.ribbon = .ok (.text t) m' ∧
      Run.toNumeral (.text t) env m' = .ok (-17) m' := by
  obtain ⟨read, kept, same⟩ := arabic_restored (-17)
  have exact : restored (-17) = -17 := same.mpr (by decide)
  have room := Run.ribbon_room.mono (k := 1) (by decide)
  rw [exact] at read kept
  have tab : ∀ c ∈ "\t".toList, Text.isBlank c = true := List.forall_mem_singleton.mpr rfl
  have letter : ∀ c ∈ "d".toList.head?, c.isDigit = false := by simp
  refine ⟨read "\t" "d" tab letter, room, fun env => ?_⟩
  obtain ⟨t, m', made, back⟩ := kept env Run.ribbon Run.ribbon_tidy room
  exact ⟨t, m', made, back m' rfl⟩

/-- The least numeral is read as the one after it. -/
theorem least_misread : parse (arabic Int64.minValue) = Int64.minValue + 1 ∧
    parse (arabic Int64.minValue) ≠ Int64.minValue := by
  decide +kernel

end Numeral

end JourneyMachine
