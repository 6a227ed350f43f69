import Mathlib.Tactic.MkIffOfInductiveProp
import Mathlib.Tactic.Ring
import JourneyMachine.Image.Codec

/-! Reading takes off the front of bytes exactly what writing put there. Each writer has its reader,
and the two are compared on one value with any bytes behind it: the statement for a record is the
chain of the statements for its fields. The only bound is the one of the length fields, which are
64-bit numbers, so that no list or text of an image may be longer than they can say. -/

namespace JourneyMachine.Image

/-- A list whose length is a 64-bit number, with every element as it should be. -/
def Counted {α : Type} (proper : α → Prop) (xs : List α) : Prop :=
  xs.length < 2 ^ 64 ∧ ∀ x ∈ xs, proper x

/-- A text whose length in bytes is a 64-bit number. -/
def Spelled (text : String) : Prop :=
  text.utf8ByteSize < 2 ^ 64

def Constant.Measured : Constant → Prop
  | .text content => Spelled content
  | .book pages => pages.length < 2 ^ 64 ∧ ∀ page ∈ pages, page.Measured
  | _ => True

@[mk_iff]
structure Codeblock.Measured (b : Codeblock) : Prop where
  constants : Counted Constant.Measured b.constants
  code : b.code.length < 2 ^ 64

@[mk_iff]
structure Pattern.Measured (p : Pattern) : Prop where
  positional : Counted (fun parameter => Spelled parameter.name) p.positional
  keywords : Counted (fun parameter => Spelled parameter.name) p.keywords
  block : p.block.Measured

@[mk_iff]
structure Journey.Measured (j : Journey) : Prop where
  name : Spelled j.name
  patterns : Counted Pattern.Measured j.patterns

@[mk_iff]
structure Essence.Measured (e : Essence) : Prop where
  name : Spelled e.name
  value : e.value.Measured
  guard : ∀ g ∈ e.guard, g.Measured

@[mk_iff]
structure Matter.Measured (m : Matter) : Prop where
  name : Spelled m.name
  guard : ∀ g ∈ m.guard, g.Measured

@[mk_iff]
structure Form.Measured (f : Form) : Prop where
  name : Spelled f.name
  essences : Counted Essence.Measured f.essences
  matter : Counted Matter.Measured f.matter
  recollections : f.recollections.length < 2 ^ 64
  changes : f.changes.length < 2 ^ 64
  parents : f.parents.length < 2 ^ 64

@[mk_iff]
structure Global.Measured (g : Global) : Prop where
  name : Spelled g.name
  value : g.value.Measured

/-- Every length in an image is a 64-bit number. -/
@[mk_iff]
structure Measured (image : Image) : Prop where
  forms : Counted Form.Measured image.forms
  journeys : Counted Journey.Measured image.journeys
  globals : Counted Global.Measured image.globals

/-- Whatever follows, reading what was written for a value gives the value and leaves what
follows. -/
def Recovers {α : Type} (read : Reader α) (write : α → List UInt8) (a : α) : Prop :=
  ∀ tail, read (write a ++ tail) = .ok (a, tail)

section Scalars

variable {α β : Type} {read : Reader α} {write : α → List UInt8} {a : α}

/-- A read that comes first in a chain takes off its own bytes. -/
theorem Recovers.bind (back : Recovers read write a) (next : α → Reader β) (tail : List UInt8) :
    (read >>= next) (write a ++ tail) = next a tail := by
  change (read (write a ++ tail) >>= fun r => next r.1 r.2) = next a tail
  rw [back tail]
  rfl

theorem Recovers.wrapped (back : Recovers read write a) (wrap : α → β) (tail : List UInt8) :
    (do return wrap (← read) : Reader β) (write a ++ tail) = .ok (wrap a, tail) := by
  rw [back.bind]
  rfl

/-- One byte of a varint that others follow. -/
theorem readVarint_more (lastMax : UInt8) (more weight low : Nat) (small : low < 128)
    (rest : List UInt8) :
    readVarint lastMax (more + 1) weight (UInt8.ofNat (low + 128) :: rest) =
      (do return low * weight + (← readVarint lastMax more (weight * 128)) : Reader Nat) rest := by
  have byte : (UInt8.ofNat (low + 128)).toNat = low + 128 := by
    simp only [UInt8.toNat_ofNat']
    omega
  have high : ¬ UInt8.ofNat (low + 128) < 128 := by
    rw [UInt8.lt_iff_toNat_lt, byte]
    simp
  have kept : (low + 128) % 128 = low := by omega
  change (if UInt8.ofNat (low + 128) < 128 then _ else _ : Reader Nat) rest = _
  rw [if_neg high, byte, kept]

/-- The last byte of a varint. -/
theorem readVarint_last (lastMax : UInt8) (more weight n : Nat) (small : n < 128)
    (allowed : more = 0 → n ≤ lastMax.toNat) (rest : List UInt8) :
    readVarint lastMax (more + 1) weight (UInt8.ofNat n :: rest) = .ok (n * weight, rest) := by
  have byte : (UInt8.ofNat n).toNat = n := by
    simp only [UInt8.toNat_ofNat']
    omega
  have low : UInt8.ofNat n < 128 := by
    rw [UInt8.lt_iff_toNat_lt, byte]
    exact small
  have fine : ¬ (more = 0 ∧ lastMax < UInt8.ofNat n) := by
    rintro ⟨none, above⟩
    rw [UInt8.lt_iff_toNat_lt, byte] at above
    have := allowed none
    omega
  change (if UInt8.ofNat n < 128 then
    (if more = 0 ∧ lastMax < UInt8.ofNat n then _ else _) else _ : Reader Nat) rest = _
  rw [if_pos low, if_neg fine, byte, Nat.mod_eq_of_lt small]
  rfl

/-- A varint is read back if its bytes are not too many and the last is not too large. -/
theorem readVarint_writeVarint (lastMax : UInt8) (seven : lastMax.toNat < 128) (more : Nat) :
    ∀ (n weight : Nat) (tail : List UInt8), n < (lastMax.toNat + 1) * 128 ^ more →
      readVarint lastMax (more + 1) weight (writeVarint n ++ tail) = .ok (n * weight, tail) := by
  -- On the bytes that may still follow: each one takes seven bits off the number.
  induction more with
  | zero =>
    intro n weight tail below
    rw [writeVarint, if_pos (by omega)]
    exact readVarint_last lastMax 0 weight n (by omega) (by omega) tail
  | succ more ih =>
    intro n weight tail below
    rw [writeVarint]
    split
    · case isTrue small => exact readVarint_last lastMax _ weight n small (by omega) tail
    · case isFalse large =>
      have shifted : n / 128 < (lastMax.toNat + 1) * 128 ^ more := by
        rw [Nat.div_lt_iff_lt_mul (by decide), Nat.mul_assoc, ← Nat.pow_succ]
        exact below
      have whole : n % 128 * weight + n / 128 * (weight * 128) = n * weight := by
        have split_up := Nat.mod_add_div n 128
        calc n % 128 * weight + n / 128 * (weight * 128)
            = (n % 128 + 128 * (n / 128)) * weight := by ring
          _ = n * weight := by rw [split_up]
      have rest : Recovers (readVarint lastMax (more + 1) (weight * 128))
          (fun _ => writeVarint (n / 128)) (n / 128 * (weight * 128)) :=
        fun tail => ih (n / 128) (weight * 128) tail shifted
      rw [List.cons_append, readVarint_more lastMax _ _ _ (Nat.mod_lt _ (by decide)), rest.bind,
        whole]
      rfl

theorem recovers_long {n : Nat} (bounded : n < 2 ^ 64) : Recovers readLong writeVarint n := by
  intro tail
  simpa [readLong] using readVarint_writeVarint 1 (by decide) 9 n 1 tail (by simpa using bounded)

theorem recovers_word (w : UInt32) : Recovers readWord writeWord w := by
  have number : Recovers (readVarint 15 5 1) writeVarint w.toNat := by
    intro tail
    simpa using readVarint_writeVarint 15 (by decide) 4 w.toNat 1 tail (by simpa using w.toNat_lt)
  intro tail
  exact (number.wrapped UInt32.ofNat tail).trans (by rw [UInt32.ofNat_toNat])

theorem recovers_bool (b : Bool) : Recovers readBool writeBool b := by
  intro tail
  cases b <;> rfl

/-- Interleaved numerals are 64-bit numbers. -/
theorem interleave_lt (n : Int64) : interleave n < 2 ^ 64 := by
  have low := n.le_toInt
  have high := n.toInt_lt
  unfold interleave
  split <;> omega

theorem separate_interleave (n : Int64) : separate (interleave n) = n := by
  unfold separate interleave
  split
  · case isTrue positive =>
    have even : 2 * n.toInt.natAbs % 2 = 0 := by omega
    have half : ((2 * n.toInt.natAbs : Nat) : Int) / 2 = n.toInt := by omega
    rw [if_pos even, half, Int64.ofInt_toInt]
  · case isFalse negative =>
    have odd : (2 * n.toInt.natAbs - 1) % 2 ≠ 0 := by omega
    have half : -(((2 * n.toInt.natAbs - 1) / 2 : Nat) : Int) - 1 = n.toInt := by omega
    rw [if_neg odd, half, Int64.ofInt_toInt]

end Scalars

section Containers

variable {α : Type} {read : Reader α} {write : α → List UInt8}

theorem readMany_flatMap {xs : List α} (each : ∀ x ∈ xs, Recovers read write x) :
    Recovers (readMany read xs.length) (fun _ => xs.flatMap write) xs := by
  induction xs with
  | nil => exact fun tail => rfl
  | cons x rest ih =>
    intro tail
    have first : Recovers read write x := each x (List.mem_cons_self ..)
    have later := ih fun y member => each y (List.mem_cons_of_mem x member)
    rw [List.flatMap_cons, List.append_assoc, List.length_cons, readMany, first.bind, later.bind]
    rfl

theorem recovers_list {xs : List α} (counted : Counted (Recovers read write) xs) :
    Recovers (readList read) (writeList write) xs := by
  intro tail
  rw [writeList, readList, List.append_assoc, (recovers_long counted.1).bind]
  exact readMany_flatMap counted.2 tail

/-- Words need no condition of their own in a list. -/
theorem recovers_words {words : List UInt32} (bounded : words.length < 2 ^ 64) :
    Recovers (readList readWord) (writeList writeWord) words :=
  recovers_list ⟨bounded, fun w _ => recovers_word w⟩

theorem recovers_option {o : Option α} (inside : ∀ a ∈ o, Recovers read write a) :
    Recovers (readOption read) (writeOption write) o := by
  intro tail
  cases o with
  | none => rfl
  | some a =>
    change (do return some (← read) : Reader (Option α)) (write a ++ tail) = _
    rw [(inside a rfl).bind]
    rfl

theorem Counted.imp {proper better : α → Prop} {xs : List α} (counted : Counted proper xs)
    (step : ∀ x, proper x → better x) : Counted better xs :=
  ⟨counted.1, fun x member => step x (counted.2 x member)⟩

end Containers

section Texts

theorem decode_encode (text : String) : Text.decode? (Text.encode text) = some text := by
  have whole : (⟨(Text.encode text).toArray⟩ : ByteArray) = text.toByteArray := by
    simp [Text.encode]
  rw [Text.decode?, whole, String.fromUTF8?, dif_pos text.isValidUTF8]
  rfl

theorem recovers_text {text : String} (spelled : Spelled text) :
    Recovers readText writeText text := by
  intro tail
  have length : (Text.encode text).length < 2 ^ 64 := spelled
  have bytes : Recovers (readBytes (Text.encode text).length) id (Text.encode text) := by
    intro tail
    simp [readBytes]
  rw [writeText, readText, List.append_assoc, (recovers_long length).bind]
  change ((readBytes _ >>= _) : Reader String) (id (Text.encode text) ++ tail) = _
  rw [bytes.bind, decode_encode]
  rfl

end Texts

section Constants

theorem writeConstants_eq (pages : List Constant) :
    writeConstants pages = pages.flatMap writeConstant := by
  induction pages with
  | nil => rfl
  | cons page rest ih => rw [writeConstants, ih, List.flatMap_cons]

theorem length_page {page : Constant} {pages : List Constant} (member : page ∈ pages) :
    (writeConstant page).length ≤ (writeConstants pages).length := by
  rw [writeConstants_eq]
  exact (List.sublist_flatten_of_mem (List.mem_map_of_mem member)).length_le

theorem writeVarint_ne_nil (n : Nat) : writeVarint n ≠ [] := by
  rw [writeVarint]
  split <;> exact List.cons_ne_nil _ _

theorem recovers_constantWithin (room : Nat) :
    ∀ c : Constant, c.Measured → (writeConstant c).length ≤ room →
      Recovers (readConstantWithin room) writeConstant c := by
  -- The tag of a book takes a byte, so its pages are shorter than the book and fit into what room
  -- is left.
  induction room with
  | zero =>
    intro c _ short
    cases c <;> simp [writeConstant, writeVarint_ne_nil] at short
  | succ room ih =>
    intro c measured short tail
    rw [readConstantWithin]
    cases c with
    | ni => exact (recovers_word 0).bind _ tail
    | exception => exact (recovers_word 6).bind _ tail
    | ioError => exact (recovers_word 7).bind _ tail
    | veracity truth =>
      rw [writeConstant, List.append_assoc]
      exact ((recovers_word 1).bind _ _).trans ((recovers_bool truth).wrapped Constant.veracity tail)
    | numeral n =>
      have inside := (recovers_long (interleave_lt n)).wrapped (Constant.numeral ∘ separate) tail
      rw [Function.comp, separate_interleave] at inside
      rw [writeConstant, List.append_assoc]
      exact ((recovers_word 2).bind _ _).trans inside
    | text content =>
      have spelled : Spelled content := by simpa [Constant.Measured] using measured
      rw [writeConstant, List.append_assoc]
      exact ((recovers_word 3).bind _ _).trans ((recovers_text spelled).wrapped Constant.text tail)
    | journey index =>
      rw [writeConstant, List.append_assoc]
      exact ((recovers_word 4).bind _ _).trans ((recovers_word index).wrapped Constant.journey tail)
    | form index =>
      rw [writeConstant, List.append_assoc]
      exact ((recovers_word 5).bind _ _).trans ((recovers_word index).wrapped Constant.form tail)
    | book pages =>
      rw [Constant.Measured] at measured
      -- A page is at most as long as what is left of the book behind its tag.
      have counted : Counted (Recovers (readConstantWithin room) writeConstant) pages := by
        refine ⟨measured.1, fun page member => ih page (measured.2 page member) ?_⟩
        have inside := length_page member
        have tag := List.length_pos_iff.mpr (writeVarint_ne_nil 8)
        simp only [writeConstant, List.length_append] at short
        omega
      have layout : writeConstant (.book pages) =
          writeVarint 8 ++ writeList writeConstant pages := by
        rw [writeConstant, writeList, writeConstants_eq, List.append_assoc]
      rw [layout, List.append_assoc]
      exact ((recovers_word 8).bind _ _).trans ((recovers_list counted).wrapped Constant.book tail)

theorem recovers_constant {c : Constant} (measured : c.Measured) :
    Recovers readConstant writeConstant c := by
  intro tail
  have short : (writeConstant c).length ≤ (writeConstant c ++ tail).length := by simp
  exact recovers_constantWithin _ c measured short tail

end Constants

section Records

theorem recovers_parameter {p : Parameter} (name : Spelled p.name) :
    Recovers readParameter writeParameter p := by
  intro tail
  simp only [readParameter, writeParameter, List.append_assoc]
  rw [(recovers_text name).bind, (recovers_option fun w _ => recovers_word w).bind,
    (recovers_option fun w _ => recovers_word w).bind]
  rfl

theorem recovers_codeblock {b : Codeblock} (measured : b.Measured) :
    Recovers readCodeblock writeCodeblock b := by
  intro tail
  simp only [readCodeblock, writeCodeblock, List.append_assoc]
  rw [(recovers_word b.registers).bind,
    (recovers_list (measured.constants.imp fun _ => recovers_constant)).bind,
    (recovers_words measured.code).bind]
  rfl

theorem recovers_pattern {p : Pattern} (measured : p.Measured) :
    Recovers readPattern writePattern p := by
  intro tail
  simp only [readPattern, writePattern, List.append_assoc]
  rw [(recovers_list (measured.positional.imp fun _ => recovers_parameter)).bind,
    (recovers_list (measured.keywords.imp fun _ => recovers_parameter)).bind,
    (recovers_bool p.splat).bind, (recovers_bool p.splatsplat).bind,
    (recovers_option fun w _ => recovers_word w).bind, (recovers_word p.start).bind,
    (recovers_codeblock measured.block).bind]
  rfl

theorem recovers_journey {j : Journey} (measured : j.Measured) :
    Recovers readJourney writeJourney j := by
  intro tail
  simp only [readJourney, writeJourney, List.append_assoc]
  rw [(recovers_text measured.name).bind,
    (recovers_list (measured.patterns.imp fun _ => recovers_pattern)).bind]
  rfl

theorem recovers_essence {e : Essence} (measured : e.Measured) :
    Recovers readEssence writeEssence e := by
  intro tail
  simp only [readEssence, writeEssence, List.append_assoc]
  rw [(recovers_text measured.name).bind, (recovers_constant measured.value).bind,
    (recovers_option fun g inside => recovers_constant (measured.guard g inside)).bind]
  rfl

theorem recovers_matter {m : Matter} (measured : m.Measured) :
    Recovers readMatter writeMatter m := by
  intro tail
  simp only [readMatter, writeMatter, List.append_assoc]
  rw [(recovers_text measured.name).bind,
    (recovers_option fun g inside => recovers_constant (measured.guard g inside)).bind]
  rfl

theorem recovers_form {f : Form} (measured : f.Measured) : Recovers readForm writeForm f := by
  intro tail
  simp only [readForm, writeForm, List.append_assoc]
  rw [(recovers_text measured.name).bind,
    (recovers_list (measured.essences.imp fun _ => recovers_essence)).bind,
    (recovers_list (measured.matter.imp fun _ => recovers_matter)).bind,
    (recovers_words measured.recollections).bind, (recovers_words measured.changes).bind,
    (recovers_option fun w _ => recovers_word w).bind, (recovers_words measured.parents).bind]
  rfl

theorem recovers_global {g : Global} (measured : g.Measured) :
    Recovers readGlobal writeGlobal g := by
  intro tail
  simp only [readGlobal, writeGlobal, List.append_assoc]
  rw [(recovers_text measured.name).bind, (recovers_constant measured.value).bind]
  rfl

theorem recovers_image {image : Image} (measured : image.Measured) :
    Recovers readImage encode image := by
  intro tail
  simp only [readImage, encode, List.append_assoc]
  rw [(recovers_list (measured.forms.imp fun _ => recovers_form)).bind,
    (recovers_list (measured.journeys.imp fun _ => recovers_journey)).bind,
    (recovers_list (measured.globals.imp fun _ => recovers_global)).bind,
    (recovers_option fun w _ => recovers_word w).bind,
    (recovers_option fun w _ => recovers_word w).bind]
  rfl

/-- Bytes that begin with those of an image, whatever comes after them, are that image: reading
succeeds, gives the image back and stops where its bytes end. -/
theorem decode_encode_append (image : Image) (measured : image.Measured) (tail : List UInt8) :
    decode (encode image ++ tail) = .ok image ∧
      readImage (encode image ++ tail) = .ok (image, tail) := by
  have read := recovers_image measured tail
  refine ⟨?_, read⟩
  rw [decode, read]

end Records

/-- Forms that refer to each other, books inside books, the extreme numerals and names outside
ASCII. -/
def intricate : Image where
  forms := [
    { name := "Ørn", parents := [1], changes := [0, 4294967295],
      essences := [{ name := "", value := .book [.ni, .book [.text "🦉\n"]], guard := some (.form 1) }],
      matter := [{ name := "längd", guard := some (.journey 300) }, { name := "b" }] },
    { name := "二", parents := [0], imitate := some 128, recollections := [127] }]
  journeys := [
    { name := "färd",
      patterns := [
        { positional := [{ name := "x", fallback := some 16384 }], keywords := [{ name := "ключ" }],
          splat := true, condition := some 9, start := 2,
          block := { registers := 3, code := [4294967295, 0, 128],
                     constants := [.numeral (-9223372036854775808), .numeral 9223372036854775807,
                       .veracity true, .exception, .ioError] } }] }]
  globals := [{ name := "g", value := .numeral (-1) }]
  main := some 0
  argvGlobal := none

theorem intricate_recovered :
    intricate.Measured ∧ decode (encode intricate ++ [255, 0]) = .ok intricate ∧
      readImage (encode intricate ++ [255, 0]) = .ok (intricate, [255, 0]) := by
  have short : ∀ text ∈ ["", "Ørn", "🦉\n", "längd", "b", "二", "färd", "x", "ключ", "g"],
      text.utf8ByteSize < 2 ^ 64 := by decide
  have measured : intricate.Measured := by
    simp at short
    simp [short, intricate, measured_iff, Form.measured_iff, Essence.measured_iff, Matter.measured_iff,
      Journey.measured_iff, Pattern.measured_iff, Codeblock.measured_iff, Global.measured_iff,
      Constant.Measured, Counted, Spelled]
  exact ⟨measured, decode_encode_append intricate measured [255, 0]⟩

end JourneyMachine.Image
