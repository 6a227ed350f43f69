import JourneyMachine.Proofs.Numerals.Arabic

/-! Roman numerals are read back. Each weight is written as one letter, or as a letter before a
greater one it is subtracted from, and what comes after it starts with no greater letter than the
weight. So the reader, which looks one letter ahead, adds just the weight for each of them, and
needs to know nothing about how often a weight was written. -/

namespace JourneyMachine

namespace Numeral

/-- How a weight is written: as its own letter, or as a smaller letter before a greater one. -/
inductive Writes : Nat → List Char → Prop
  | letter {c weight} : romanValue? c = some weight → Writes weight [c]
  | pair {c d v w weight} : romanValue? c = some v → romanValue? d = some w → v < w →
      v + weight = w → v ≤ weight → Writes weight [c, d]

/-- A letter of that value at most, or none, comes first. -/
def StartsWithin (bound : Nat) (cs : List Char) : Prop :=
  ∀ c ∈ cs.head?, ∀ v, romanValue? c = some v → v ≤ bound

/-- In front of those characters, these are read as a number that is added. -/
def Adds (front : List Char) (k : Nat) (cs : List Char) : Prop :=
  ∀ total letters : Nat, total + k ≤ greatest →
    readRoman (Int64.ofInt total) letters (front ++ cs) =
      readRoman (Int64.ofInt (total + k)) (letters + front.length) cs

variable {n : Int64} {weight bound k l v w : Nat} {c d : Char} {cs front back digits : List Char}
  {rows : List (Nat × String)}

section Letters

theorem mem_romanLetters (value : (romanValue? c).isSome) : c ∈ romanLetters := by
  unfold romanValue? at value
  split at value <;> first | decide | cases value

theorem value_le (value : romanValue? c = some v) : v ≤ 1000 := by
  unfold romanValue? at value
  split at value <;> cases value <;> decide

theorem parse_letter (value : (romanValue? c).isSome) (cs : List Char) :
    parse (String.ofList (c :: cs)) = ((parseRoman? (c :: cs)).map (·.1)).getD 0 := by
  have letter := mem_romanLetters value
  have seen : ∀ d ∈ romanLetters, Text.isBlank d = false := by
    simp only [romanLetters, List.forall_mem_cons]
    exact ⟨rfl, rfl, rfl, rfl, rfl, rfl, rfl, rfl, by simp⟩
  have start : Text.trimStart (c :: cs) = c :: cs :=
    List.dropWhile_cons_of_neg (by simp [seen c letter])
  rw [parse, String.toList_ofList, start]
  exact if_pos (by simpa using letter)

/-- What is read from a letter on up to what is no letter. -/
theorem parseRoman?_letter (value : (romanValue? c).isSome)
    (stops : ∀ c ∈ cs.head?, romanValue? c = none) (adds : Adds (c :: front) k cs)
    (small : k ≤ greatest) :
    parseRoman? (c :: front ++ cs) = some (Int64.ofInt k, (c :: front).length) := by
  have other : c ≠ 'N' := by
    rintro rfl
    cases value
  have ends : ∀ total letters, readRoman total letters cs = (total, letters) := by
    intro total letters
    cases cs with
    | nil => rfl
    | cons c cs => rw [readRoman, stops c rfl]
  have start : readRoman 0 0 (c :: front ++ cs) = _ := adds 0 0 (by omega)
  rw [ends, Nat.cast_zero, Int.zero_add, Nat.zero_add] at start
  unfold parseRoman?
  split
  · rename_i same
    exact absurd (List.cons.inj same).1 other
  · rw [start]
    exact if_neg (Nat.succ_ne_zero _)

theorem utf8ByteSize_letters (letters : ∀ c ∈ cs, (romanValue? c).isSome) :
    (String.ofList cs).utf8ByteSize = cs.length := by
  have ascii : ∀ d ∈ romanLetters, d.utf8Size = 1 := by
    simp only [romanLetters, List.forall_mem_cons]
    exact ⟨rfl, rfl, rfl, rfl, rfl, rfl, rfl, rfl, by simp⟩
  induction cs with
  | nil => rfl
  | cons c cs ih =>
    have one := ascii c (mem_romanLetters (letters c List.mem_cons_self))
    have rest := ih fun d member => letters d (List.mem_cons_of_mem _ member)
    rw [← List.singleton_append, String.ofList_append, String.utf8ByteSize_append, rest]
    simp [one, Nat.add_comm]

end Letters

section Reading

theorem StartsWithin.mono (starts : StartsWithin k cs) (less : k ≤ l) : StartsWithin l cs :=
  fun c first v value => (starts c first v value).trans less

theorem StartsWithin.none (starts : ∀ c ∈ cs.head?, romanValue? c = none) :
    StartsWithin bound cs := by
  intro c first v value
  rw [starts c first] at value
  cases value

theorem Writes.starts (writes : Writes weight digits) (cs : List Char) :
    StartsWithin weight (digits ++ cs) := by
  cases writes with
  | letter value =>
    intro c first v other
    cases first
    exact (Option.some.inj (other.symm.trans value)).le
  | pair value _ _ _ less =>
    intro c first v other
    cases first
    exact (Option.some.inj (other.symm.trans value)).le.trans less

theorem Writes.letters (writes : Writes weight digits) :
    ∀ c ∈ digits, (romanValue? c).isSome := by
  cases writes with
  | letter value => simp [value]
  | pair value next => simp [value, next]

theorem Writes.ne_nil (writes : Writes weight digits) : digits ≠ [] := by
  cases writes <;> exact List.cons_ne_nil _ _

theorem saturate_add {z diff : Int} (low : -greatest ≤ z) (high : z ≤ greatest)
    (low' : -greatest ≤ z + diff) (high' : z + diff ≤ greatest) :
    saturate ((Int64.ofInt z).toInt + diff) = Int64.ofInt (z + diff) := by
  have limit : (greatest : Int) = 2 ^ 63 - 1 := rfl
  have inside : (Int64.ofInt z).toInt = z := Int64.toInt_ofInt_of_le (by omega) (by omega)
  rw [inside, saturate]
  congr 1
  omega

theorem readRoman_add {z : Int} {letters : Nat} (value : romanValue? c = some v)
    (starts : StartsWithin v cs) (low : -greatest ≤ z) (high : z + v ≤ greatest) :
    readRoman (Int64.ofInt z) letters (c :: cs) =
      readRoman (Int64.ofInt (z + v)) (letters + 1) cs := by
  have last : (cs.head?.bind romanValue?).any (v < ·) = false := by
    cases first : cs.head? with
    | none => rfl
    | some d =>
      cases next : romanValue? d with
      | none => simp [next]
      | some w => simpa [next] using starts d first w next
  rw [readRoman, value]
  simp only [last, Bool.false_eq_true, if_false]
  rw [saturate_add low (by omega) (by omega) high]

theorem readRoman_sub {z : Int} {letters : Nat} (value : romanValue? c = some v)
    (next : romanValue? d = some w) (greater : v < w) (low : -greatest ≤ z - v)
    (high : z ≤ greatest) :
    readRoman (Int64.ofInt z) letters (c :: d :: cs) =
      readRoman (Int64.ofInt (z - v)) (letters + 1) (d :: cs) := by
  have more : ((d :: cs).head?.bind romanValue?).any (v < ·) = true := by simp [next, greater]
  rw [readRoman, value]
  simp only [more, if_true]
  rw [Int.sub_eq_add_neg, saturate_add (by omega) high (by omega) (by omega), ← Int.sub_eq_add_neg]

theorem Writes.adds (writes : Writes weight digits) (starts : StartsWithin weight cs) :
    Adds digits weight cs := by
  intro total letters room
  cases writes with
  | letter value =>
    exact readRoman_add value starts (by omega) (by omega)
  | @pair c d v w _ value next greater sum less =>
    have limit : (greatest : Int) = 2 ^ 63 - 1 := rfl
    -- The smaller letter comes off first, which may lead below zero for the moment.
    have small := value_le value
    have both : (total : Int) - v + w = total + weight := by omega
    calc readRoman (Int64.ofInt total) letters (c :: d :: cs)
      _ = readRoman (Int64.ofInt (total - v)) (letters + 1) (d :: cs) :=
        readRoman_sub value next greater (by omega) (by omega)
      _ = readRoman (Int64.ofInt (total - v + w)) (letters + 2) cs :=
        readRoman_add next (starts.mono (by omega)) (by omega) (by omega)
      _ = readRoman (Int64.ofInt (total + weight)) (letters + 2) cs := by rw [both]

theorem Adds.append (first : Adds front k (back ++ cs)) (second : Adds back l cs) :
    Adds (front ++ back) (k + l) cs := by
  intro total letters room
  have middle := second (total + k) (letters + front.length) (by omega)
  rw [List.append_assoc, first total letters (by omega), ← Int.natCast_add, middle,
    List.length_append, Nat.add_assoc, Int.natCast_add, Int.natCast_add, Int.add_assoc]

theorem Writes.adds_replicate (writes : Writes weight digits) (starts : StartsWithin weight cs)
    (times : Nat) : Adds (List.replicate times digits).flatten (times * weight) cs := by
  induction times with
  | zero =>
    intro total letters _
    simp
  | succ times ih =>
    have next : StartsWithin weight ((List.replicate times digits).flatten ++ cs) := by
      cases times with
      | zero => exact starts
      | succ times =>
        rw [List.replicate_succ, List.flatten_cons, List.append_assoc]
        exact writes.starts _
    rw [List.replicate_succ, List.flatten_cons, Nat.succ_mul, Nat.add_comm]
    exact (writes.adds next).append ih

end Reading

section Rows

/-- Every row is written so, and no later one weighs more. -/
structure Descends (rows : List (Nat × String)) : Prop where
  written : ∀ row ∈ rows, Writes row.1 row.2.toList
  sorted : rows.Pairwise fun row later => later.1 ≤ row.1

def leftover (rows : List (Nat × String)) (n : Nat) : Nat := rows.foldl (fun n row => n % row.1) n

theorem Descends.tail {row : Nat × String} (descends : Descends (row :: rows)) : Descends rows :=
  ⟨fun later member => descends.written later (List.mem_cons_of_mem _ member),
    descends.sorted.of_cons⟩

theorem descends_romanWeights : Descends romanWeights where
  written := by
    simp only [romanWeights, List.forall_mem_cons]
    exact ⟨.letter rfl, .pair rfl rfl (by decide) rfl (by decide), .letter rfl,
      .pair rfl rfl (by decide) rfl (by decide), .letter rfl,
      .pair rfl rfl (by decide) rfl (by decide), .letter rfl,
      .pair rfl rfl (by decide) rfl (by decide), .letter rfl,
      .pair rfl rfl (by decide) rfl (by decide), .letter rfl,
      .pair rfl rfl (by decide) rfl (by decide), .letter rfl, by simp⟩
  sorted := by decide

theorem Descends.starts (descends : Descends rows) (within : ∀ row ∈ rows, row.1 ≤ bound)
    (starts : StartsWithin bound cs) (k : Nat) :
    StartsWithin bound (romanDigits rows k ++ cs) := by
  induction rows generalizing k with
  | nil => exact starts
  | cons row rows ih =>
    obtain ⟨weight, digits⟩ := row
    rw [romanDigits, List.append_assoc]
    cases k / weight with
    | zero =>
      -- What is not written leaves the start to the later weights.
      exact ih descends.tail (fun row member => within row (List.mem_cons_of_mem _ member)) _
    | succ times =>
      rw [List.replicate_succ, List.flatten_cons, List.append_assoc]
      exact ((descends.written _ List.mem_cons_self).starts _).mono (within _ List.mem_cons_self)

/-- The digits of all weights in front of what is no letter. -/
theorem Descends.adds (descends : Descends rows) (stops : ∀ c ∈ cs.head?, romanValue? c = none)
    (whole : leftover rows k = 0) : Adds (romanDigits rows k) k cs := by
  induction rows generalizing k with
  | nil =>
    cases whole
    intro total letters _
    simp [romanDigits]
  | cons row rows ih =>
    obtain ⟨weight, digits⟩ := row
    have least : ∀ row ∈ rows, row.1 ≤ weight := fun _ => List.rel_of_pairwise_cons descends.sorted
    have next := descends.tail.starts least (.none stops) (k % weight)
    have front := (descends.written _ List.mem_cons_self).adds_replicate next (k / weight)
    have both := front.append (ih descends.tail whole)
    rwa [Nat.div_add_mod'] at both

theorem Descends.letters (descends : Descends rows) (k : Nat) :
    ∀ c ∈ romanDigits rows k, (romanValue? c).isSome := by
  induction rows generalizing k with
  | nil => exact fun c member => absurd member List.not_mem_nil
  | cons row rows ih =>
    obtain ⟨weight, digits⟩ := row
    intro c member
    rcases List.mem_append.mp member with front | back
    · obtain ⟨written, repeated, member⟩ := List.mem_flatten.mp front
      rw [(List.mem_replicate.mp repeated).2] at member
      exact (descends.written _ List.mem_cons_self).letters c member
    · exact ih descends.tail _ c back

/-- No digits are written for what is left over only. -/
theorem Descends.leftover_eq (descends : Descends rows) (none : romanDigits rows k = []) :
    leftover rows k = k := by
  induction rows generalizing k with
  | nil => rfl
  | cons row rows ih =>
    obtain ⟨weight, digits⟩ := row
    obtain ⟨front, back⟩ := List.append_eq_nil_iff.mp none
    have never : k / weight = 0 := by
      cases times : k / weight with
      | zero => rfl
      | succ times =>
        rw [times, List.replicate_succ, List.flatten_cons] at front
        exact absurd (List.append_eq_nil_iff.mp front).1
          (descends.written _ List.mem_cons_self).ne_nil
    have all := Nat.div_add_mod k weight
    rw [never, Nat.mul_zero, Nat.zero_add] at all
    rw [all] at back
    have rest := ih descends.tail back
    rwa [leftover, List.foldl_cons, all]

end Rows

theorem leftover_romanWeights (k : Nat) : leftover romanWeights k = 0 := Nat.mod_one _

theorem roman_digits (positive : 0 < n.toInt) (small : n.toInt ≤ romanLimit) :
    roman n = String.ofList (romanDigits romanWeights n.toInt.natAbs) := by
  have other : n ≠ 0 := by
    rintro rfl
    exact absurd positive (by decide)
  have unsigned : ¬ n.toInt < 0 := by omega
  have within : ¬ romanLimit < n.toInt.natAbs := by omega
  simp only [roman, other, within, unsigned, if_false]

theorem parseRoman?_digits (positive : 0 < k) (small : k ≤ greatest)
    (stops : ∀ c ∈ cs.head?, romanValue? c = none) :
    parseRoman? (romanDigits romanWeights k ++ cs) =
      some (Int64.ofInt k, (romanDigits romanWeights k).length) := by
  have whole := leftover_romanWeights k
  have adds := descends_romanWeights.adds stops whole
  have letters := descends_romanWeights.letters k
  cases written : romanDigits romanWeights k with
  | nil =>
    have none := descends_romanWeights.leftover_eq written
    omega
  | cons c front =>
    rw [written] at adds letters
    exact parseRoman?_letter (letters c List.mem_cons_self) stops adds small

theorem parseRoman?_zero {rest : String}
    (alone : ∀ c ∈ rest.toList.head?, Text.isAlphanumeric c = false) :
    parseRoman? (roman 0 ++ rest).toList = some (0, (roman 0).length) := by
  have next : rest.toList.head?.any Text.isAlphanumeric = false := by
    cases first : rest.toList.head? with
    | none => rfl
    | some c => exact alone c first
  have front : (roman 0 ++ rest).toList = 'N' :: rest.toList := String.toList_append
  rw [front, parseRoman?, next]
  rfl

theorem parseRoman?_roman (positive : 0 < n.toInt) (small : n.toInt ≤ romanLimit)
    (stops : ∀ c ∈ cs.head?, romanValue? c = none) :
    parseRoman? ((roman n).toList ++ cs) = some (n, (roman n).length) := by
  have below : n.toInt.natAbs ≤ greatest := by
    unfold romanLimit at small
    unfold greatest
    omega
  have own : Int64.ofInt n.toInt.natAbs = n := by
    rw [Int.natAbs_of_nonneg positive.le, Int64.ofInt_toInt]
  rw [roman_digits positive small, String.toList_ofList, String.length_ofList]
  exact (parseRoman?_digits (by omega) below stops).trans (by rw [own])

theorem roman_letters (positive : 0 < n.toInt) (small : n.toInt ≤ romanLimit) :
    ∀ c ∈ (roman n).toList, (romanValue? c).isSome := by
  rw [roman_digits positive small, String.toList_ofList]
  exact descends_romanWeights.letters n.toInt.natAbs

theorem parse_roman (positive : 0 < n.toInt) (small : n.toInt ≤ romanLimit) :
    parse (roman n) = n := by
  have read : parseRoman? ((roman n).toList ++ []) = _ :=
    parseRoman?_roman positive small (by simp)
  have letters := roman_letters positive small
  rw [List.append_nil] at read
  cases written : (roman n).toList with
  | nil =>
    rw [written] at read
    cases read
  | cons c front =>
    rw [written] at read letters
    rw [← String.ofList_toList (s := roman n), written,
      parse_letter (letters c List.mem_cons_self), read]
    rfl

/-- A numeral that is not negative is read back from its roman form, and up to the limit the form is
read whole, whatever follows that is no letter of it. -/
theorem roman_restored (natural : 0 ≤ n.toInt) :
    parse (roman n) = n ∧
    (n.toInt ≤ romanLimit → (roman n).utf8ByteSize = (roman n).length ∧
      ∀ rest : String, (∀ c ∈ rest.toList.head?, romanValue? c = none) →
        (n = 0 → ∀ c ∈ rest.toList.head?, Text.isAlphanumeric c = false) →
        parseRoman? (roman n ++ rest).toList = some (n, (roman n).length)) := by
  by_cases zero : n = 0
  · subst zero
    exact ⟨by decide, fun _ => ⟨rfl, fun rest _ alone => parseRoman?_zero (alone rfl)⟩⟩
  · have positive : 0 < n.toInt := by
      have other : n.toInt ≠ 0 := fun none => zero (Int64.toInt_inj.mp none)
      omega
    by_cases small : n.toInt ≤ romanLimit
    · refine ⟨parse_roman positive small, fun _ => ⟨?_, fun rest stops _ => ?_⟩⟩
      · have size := utf8ByteSize_letters (roman_letters positive small)
        rwa [String.ofList_toList, String.length_toList] at size
      · rw [String.toList_append, parseRoman?_roman positive small stops]
    · have written : roman n = arabic n := by
        rw [roman, if_neg zero, if_pos (by omega)]
      have other : n ≠ Int64.minValue := by
        rintro rfl
        exact absurd natural (by decide)
      rw [written, parse_arabic_self, restored_eq_iff.mpr other]
      exact ⟨rfl, fun within => absurd within small⟩

/-- Letters and pairs by turns, before an `N` that is not read on, zero before a blank, and the first
number past the limit. -/
theorem roman_read : 0 ≤ (1994 : Int64).toInt ∧ parse (roman 1994) = 1994 ∧
    parseRoman? (roman 1994 ++ "N").toList = some (1994, (roman 1994).length) ∧
    parseRoman? (roman 0 ++ " V").toList = some (0, (roman 0).length) ∧
    parse (roman 1000001) = 1000001 := by
  have paired := roman_restored (n := 1994) (by decide)
  have zero := roman_restored (n := 0) (by decide)
  have letter : ∀ c ∈ "N".toList.head?, romanValue? c = none := by
    rintro c ⟨⟩
    rfl
  have blank : ∀ c ∈ " V".toList.head?,
      romanValue? c = none ∧ Text.isAlphanumeric c = false := by
    rintro c ⟨⟩
    exact ⟨rfl, by decide⟩
  exact ⟨by decide, paired.1, (paired.2 (by decide)).2 "N" letter (by decide),
    (zero.2 (by decide)).2 " V" (fun c first => (blank c first).1) fun _ c first => (blank c first).2,
    (roman_restored (by decide)).1⟩

end Numeral

end JourneyMachine
