import JourneyMachine.Proofs.Image.RoundTrip

namespace JourneyMachine.Image

/-- From bytes that the written ones continue, or that continue the written ones, nothing can be
read but the value, and only from behind all that was written. -/
def Demands {α : Type} (read : Reader α) (written : List UInt8) (a : α) : Prop :=
  ∀ bytes missing tail b rest, read bytes = .ok (b, rest) → bytes ++ missing = written ++ tail →
    b = a ∧ bytes = written ++ rest

section Rules

variable {α β : Type} {read : Reader α} {next : α → Reader β} {written more : List UInt8} {a : α}
  {b : β}

theorem bind_read {bytes rest : List UInt8} (done : (read >>= next) bytes = .ok (b, rest)) :
    ∃ a left, read bytes = .ok (a, left) ∧ next a left = .ok (b, rest) := by
  change (read bytes >>= fun r => next r.1 r.2) = _ at done
  cases first : read bytes with
  | error fault =>
    rw [first] at done
    contradiction
  | ok result =>
    rw [first] at done
    exact ⟨result.1, result.2, rfl, done⟩

theorem Demands.pure : Demands (Pure.pure a) [] a := by
  intro bytes missing tail b rest done same
  cases done
  exact ⟨rfl, rfl⟩

theorem Demands.bind (first : Demands read written a) (later : Demands (next a) more b) :
    Demands (read >>= next) (written ++ more) b := by
  intro bytes missing tail c rest done same
  obtain ⟨d, left, began, ended⟩ := bind_read done
  rw [List.append_assoc] at same
  obtain ⟨rfl, rfl⟩ := first bytes missing (more ++ tail) d left began same
  rw [List.append_assoc, List.append_cancel_left_eq] at same
  obtain ⟨rfl, rfl⟩ := later left missing tail c rest ended same
  exact ⟨rfl, (List.append_assoc ..).symm⟩

/-- The last read of a chain. -/
theorem Demands.last (first : Demands read written a) (ends : next a = Pure.pure b) :
    Demands (read >>= next) written b := by
  have chain : Demands (read >>= next) (written ++ []) b := first.bind (ends ▸ .pure)
  rwa [List.append_nil] at chain

end Rules

section Scalars

theorem demands_byte (byte : UInt8) : Demands readByte [byte] byte := by
  intro bytes missing tail b rest done same
  cases bytes with
  | nil => contradiction
  | cons first others =>
    cases done
    simp only [List.cons_append, List.nil_append, List.cons.injEq] at same
    simp [same.1]

theorem demands_varint (lastMax : UInt8) (count : Nat) :
    ∀ n weight, Demands (readVarint lastMax count weight) (writeVarint n) (n * weight) := by
  -- On the bytes there may be: what was read from the front is read from the same bytes here.
  induction count with
  | zero =>
    intro n weight bytes missing tail b rest done
    contradiction
  | succ count ih =>
    intro n weight
    rw [writeVarint]
    split
    · case isTrue small =>
      have byte : (UInt8.ofNat n).toNat = n := by
        rw [UInt8.toNat_ofNat']
        omega
      have low : UInt8.ofNat n < 128 := by
        rw [UInt8.lt_iff_toNat_lt, byte]
        exact small
      have kept : (UInt8.ofNat n).toNat % 128 = n := by rw [byte, Nat.mod_eq_of_lt small]
      intro bytes missing tail b rest done same
      obtain ⟨first, left, began, ended⟩ := bind_read done
      obtain ⟨rfl, rfl⟩ := demands_byte _ bytes missing tail first left began same
      simp only [if_pos low, kept] at ended
      -- Where this is the last byte that may come, it can still be too large.
      split at ended
      · contradiction
      · cases ended
        exact ⟨rfl, rfl⟩
    · case isFalse large =>
      intro bytes missing tail b rest done same
      cases bytes with
      | nil => contradiction
      | cons first others =>
        simp only [List.cons_append, List.cons.injEq] at same
        obtain ⟨rfl, same⟩ := same
        rw [readVarint_more lastMax _ _ _ (Nat.mod_lt n (by decide))] at done
        obtain ⟨high, left, began, ended⟩ := bind_read done
        obtain ⟨rfl, rfl⟩ := ih _ _ others missing tail high left began same
        cases ended
        refine ⟨?_, rfl⟩
        calc n % 128 * weight + n / 128 * (weight * 128)
            = (n % 128 + 128 * (n / 128)) * weight := by ring
          _ = n * weight := by rw [Nat.mod_add_div]

theorem demands_long (n : Nat) : Demands readLong (writeVarint n) n := by
  have number := demands_varint 1 10 n 1
  rwa [Nat.mul_one] at number

theorem demands_word (w : UInt32) : Demands readWord (writeWord w) w := by
  have number := demands_varint 15 5 w.toNat 1
  rw [Nat.mul_one] at number
  exact number.last (congrArg Pure.pure UInt32.ofNat_toNat)

theorem demands_bool (b : Bool) : Demands readBool (writeBool b) b := by
  cases b with
  | false => exact (demands_byte 0).last rfl
  | true => exact (demands_byte 1).last rfl

end Scalars

section Containers

variable {α : Type} {read : Reader α} {write : α → List UInt8}
  (each : ∀ a, Demands read (write a) a)
include each

theorem demands_many (xs : List α) : Demands (readMany read xs.length) (xs.flatMap write) xs := by
  induction xs with
  | nil => exact .pure
  | cons x rest ih =>
    rw [List.flatMap_cons]
    exact (each x).bind (ih.last rfl)

theorem demands_list (xs : List α) : Demands (readList read) (writeList write xs) xs :=
  (demands_long xs.length).bind (demands_many each xs)

theorem demands_option (o : Option α) : Demands (readOption read) (writeOption write o) o := by
  cases o with
  | none => exact (demands_byte 0).last rfl
  | some a => exact (demands_byte 1).bind ((each a).last rfl)

end Containers

section Texts

theorem demands_bytes (content : List UInt8) :
    Demands (readBytes content.length) content content := by
  intro bytes missing tail b rest done same
  unfold readBytes at done
  split at done
  · contradiction
  · rename_i enough
    have start : content <+: bytes ++ missing := same ▸ List.prefix_append ..
    obtain ⟨left, rfl⟩ : content <+: bytes :=
      List.prefix_of_prefix_length_le start (List.prefix_append ..) (Nat.le_of_not_lt enough)
    rw [List.take_left, List.drop_left] at done
    cases done
    exact ⟨rfl, rfl⟩

theorem demands_text (text : String) : Demands readText (writeText text) text := by
  apply (demands_long _).bind
  apply (demands_bytes _).last
  rw [decode_encode]

end Texts

section Constants

theorem demands_constantWithin (room : Nat) :
    ∀ c, Demands (readConstantWithin room) (writeConstant c) c := by
  induction room with
  | zero =>
    intro c bytes missing tail b rest done
    contradiction
  | succ room ih =>
    intro c
    rw [readConstantWithin]
    cases c with
    | ni => exact (demands_word 0).last rfl
    | exception => exact (demands_word 6).last rfl
    | ioError => exact (demands_word 7).last rfl
    | veracity truth => exact (demands_word 1).bind ((demands_bool truth).last rfl)
    | numeral n =>
      apply (demands_word 2).bind
      apply (demands_long (interleave n)).last
      rw [separate_interleave]
    | text content => exact (demands_word 3).bind ((demands_text content).last rfl)
    | journey index => exact (demands_word 4).bind ((demands_word index).last rfl)
    | form index => exact (demands_word 5).bind ((demands_word index).last rfl)
    | book pages =>
      rw [writeConstant, writeConstants_eq, List.append_assoc]
      exact (demands_word 8).bind ((demands_list ih pages).last rfl)

theorem demands_constant (c : Constant) : Demands readConstant (writeConstant c) c :=
  fun bytes => demands_constantWithin bytes.length c bytes

end Constants

section Records

theorem demands_parameter (p : Parameter) : Demands readParameter (writeParameter p) p := by
  rw [writeParameter, List.append_assoc]
  apply (demands_text _).bind
  apply (demands_option demands_word _).bind
  exact (demands_option demands_word _).last rfl

theorem demands_codeblock (b : Codeblock) : Demands readCodeblock (writeCodeblock b) b := by
  rw [writeCodeblock, List.append_assoc]
  apply (demands_word _).bind
  apply (demands_list demands_constant _).bind
  exact (demands_list demands_word _).last rfl

theorem demands_pattern (p : Pattern) : Demands readPattern (writePattern p) p := by
  simp only [writePattern, List.append_assoc]
  apply (demands_list demands_parameter _).bind
  apply (demands_list demands_parameter _).bind
  apply (demands_bool _).bind
  apply (demands_bool _).bind
  apply (demands_option demands_word _).bind
  apply (demands_word _).bind
  exact (demands_codeblock _).last rfl

theorem demands_journey (j : Journey) : Demands readJourney (writeJourney j) j :=
  (demands_text _).bind ((demands_list demands_pattern _).last rfl)

theorem demands_essence (e : Essence) : Demands readEssence (writeEssence e) e := by
  rw [writeEssence, List.append_assoc]
  apply (demands_text _).bind
  apply (demands_constant _).bind
  exact (demands_option demands_constant _).last rfl

theorem demands_matter (m : Matter) : Demands readMatter (writeMatter m) m :=
  (demands_text _).bind ((demands_option demands_constant _).last rfl)

theorem demands_form (f : Form) : Demands readForm (writeForm f) f := by
  simp only [writeForm, List.append_assoc]
  apply (demands_text _).bind
  apply (demands_list demands_essence _).bind
  apply (demands_list demands_matter _).bind
  apply (demands_list demands_word _).bind
  apply (demands_list demands_word _).bind
  apply (demands_option demands_word _).bind
  exact (demands_list demands_word _).last rfl

theorem demands_global (g : Global) : Demands readGlobal (writeGlobal g) g :=
  (demands_text _).bind ((demands_constant _).last rfl)

theorem demands_image (image : Image) : Demands readImage (encode image) image := by
  simp only [encode, List.append_assoc]
  apply (demands_list demands_form _).bind
  apply (demands_list demands_journey _).bind
  apply (demands_list demands_global _).bind
  apply (demands_option demands_word _).bind
  exact (demands_option demands_word _).last rfl

end Records

/-- An image that was cut off anywhere is refused as malformed bytes. No image is read from what is
left of it, neither the same nor another one. -/
theorem truncated_refused (image : Image) (bytes : List UInt8) (front : bytes <+: encode image)
    (cut : bytes ≠ encode image) : ∃ error, decode bytes = .error (.image error) := by
  obtain ⟨missing, same⟩ := front
  cases done : readImage bytes with
  | error error => exact ⟨error, by rw [decode, done]⟩
  | ok result =>
    obtain ⟨_, whole⟩ := demands_image image bytes missing [] _ _ done (by simpa using same)
    have longer := congrArg List.length same
    rw [whole, List.length_append, List.length_append] at longer
    have none : result.2 = [] := List.length_eq_zero_iff.mp (by omega)
    rw [none, List.append_nil] at whole
    exact absurd whole cut

/-- Only the last byte is missing, which says that no global receives the arguments. -/
theorem intricate_truncated :
    (encode intricate).dropLast <+: encode intricate ∧
    (encode intricate).dropLast ≠ encode intricate ∧
    ∃ error, decode (encode intricate).dropLast = .error (.image error) := by
  have front := List.dropLast_prefix (encode intricate)
  have cut : (encode intricate).dropLast ≠ encode intricate := by
    intro same
    have length := congrArg List.length same
    have some : (encode intricate).length ≠ 0 := by simp [encode, writeList, writeVarint_ne_nil]
    rw [List.length_dropLast] at length
    omega
  exact ⟨front, cut, truncated_refused intricate _ front cut⟩

end JourneyMachine.Image
