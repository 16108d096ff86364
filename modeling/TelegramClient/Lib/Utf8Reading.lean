import TelegramClient.Lib.Utf16

/-! Bytes read as UTF-8. A byte that is in no character is read as the replacement character, and
a mark of the byte order in front is left out. -/

namespace Utf8

open String (utf8EncodeChar)

/-- The characters of some bytes. Every character has a byte at least. -/
def decodeFrom : Nat → List UInt8 → List Char
  | 0, _ => []
  | _, [] => []
  | fuel + 1, b :: rest =>
    match (b :: rest).toByteArray.utf8DecodeChar? 0 with
    | some c => c :: decodeFrom fuel ((b :: rest).drop c.utf8Size)
    | none => Char.ofNat 0xFFFD :: decodeFrom fuel rest

def mark : List UInt8 := [0xEF, 0xBB, 0xBF]

/-- A text without the mark. -/
def unmarked (bytes : List UInt8) : List UInt8 :=
  if mark <+: bytes then bytes.drop 3 else bytes

def decode (bytes : List UInt8) : List Char := decodeFrom (unmarked bytes).length (unmarked bytes)

variable {c : Char} {text : List Char} {bytes : List UInt8}

theorem decodeFrom_encodeChar (c : Char) (rest : List UInt8) (fuel : Nat) :
    decodeFrom (fuel + 1) (utf8EncodeChar c ++ rest) = c :: decodeFrom fuel rest := by
  have hdecode := @ByteArray.utf8DecodeChar?_utf8EncodeChar_append rest.toByteArray c
  rw [← List.toByteArray_append] at hdecode
  have hdrop : (utf8EncodeChar c ++ rest).drop c.utf8Size = rest := by
    rw [← String.length_utf8EncodeChar, List.drop_left]
  cases hbytes : utf8EncodeChar c ++ rest with
  | nil => exact absurd (List.append_eq_nil_iff.mp hbytes).1 String.utf8EncodeChar_ne_nil
  | cons b bytes =>
    rw [hbytes] at hdecode hdrop
    simp only [decodeFrom, hdecode, hdrop]

theorem decodeFrom_encode (text : List Char) {fuel : Nat} (h : text.length ≤ fuel) :
    decodeFrom fuel (encode text) = text := by
  induction text generalizing fuel with
  | nil => cases fuel <;> rfl
  | cons c text ih =>
    obtain ⟨fuel, rfl⟩ := Nat.exists_eq_add_one.mpr (Nat.zero_lt_of_lt h)
    rw [encode_cons, decodeFrom_encodeChar, ih (Nat.le_of_succ_le_succ h)]

theorem length_le_encode (text : List Char) : text.length ≤ (encode text).length := by
  induction text with
  | nil => exact Nat.le_refl _
  | cons c text ih =>
    have hpos := List.length_pos_of_ne_nil (String.utf8EncodeChar_ne_nil (c := c))
    rw [encode_cons, List.length_append, List.length_cons]
    omega

theorem encodeChar_mark : utf8EncodeChar (Char.ofNat 0xFEFF) = mark := by
  decide

theorem unmarked_encode (h : text.head? ≠ some (Char.ofNat 0xFEFF)) :
    unmarked (encode text) = encode text := by
  rw [unmarked, if_neg]
  rintro ⟨rest, hrest⟩
  rw [← encodeChar_mark] at hrest
  cases text with
  | nil =>
    rw [encode_nil, List.append_eq_nil_iff] at hrest
    exact String.utf8EncodeChar_ne_nil hrest.1
  | cons c text =>
    rw [encode_cons] at hrest
    obtain ⟨rfl, -⟩ := encodeChar_append_inj hrest
    exact h rfl

theorem decode_encode (h : text.head? ≠ some (Char.ofNat 0xFEFF)) : decode (encode text) = text := by
  rw [decode, unmarked_encode h, decodeFrom_encode text (length_le_encode text)]

/-- A character of one byte stands for that byte. -/
theorem mem_of_mem_decodeFrom {fuel : Nat} (hascii : c.toNat < 128) (h : c ∈ decodeFrom fuel bytes) :
    UInt8.ofNat c.toNat ∈ bytes := by
  induction fuel generalizing bytes with
  | zero => cases h
  | succ fuel ih =>
    cases bytes with
    | nil => cases h
    | cons b rest =>
      rw [decodeFrom] at h
      cases hdecode : (b :: rest).toByteArray.utf8DecodeChar? 0 with
      | none =>
        rw [hdecode] at h
        rcases List.mem_cons.mp h with rfl | hrest
        · exact absurd hascii (by decide)
        · exact List.mem_cons_of_mem b (ih hrest)
      | some d =>
        rw [hdecode] at h
        rcases List.mem_cons.mp h with rfl | hrest
        · have hbytes := String.toByteArray_utf8EncodeChar_of_utf8DecodeChar?_eq_some hdecode
          rw [encodeChar_ascii hascii] at hbytes
          have hfirst := congrArg (fun bytes : ByteArray => bytes.data.toList.head?) hbytes
          obtain ⟨n, hn⟩ := Nat.exists_eq_add_one.mpr c.utf8Size_pos
          simp [hn] at hfirst
          simp [hfirst]
        · exact List.mem_of_mem_drop (ih hrest)

theorem mem_of_mem_decode (hascii : c.toNat < 128) (h : c ∈ decode bytes) :
    UInt8.ofNat c.toNat ∈ bytes := by
  have hmem := mem_of_mem_decodeFrom hascii h
  rw [unmarked] at hmem
  split at hmem
  · exact List.mem_of_mem_drop hmem
  · exact hmem

/-- A byte below 128 is a character. -/
theorem exists_of_mem_encode {b : UInt8} (hb : b.toNat < 128) (h : b ∈ encode text) :
    ∃ c ∈ text, c.toNat = b.toNat := by
  obtain ⟨c, hc, hbyte⟩ := List.mem_flatMap.mp h
  refine ⟨c, hc, ?_⟩
  by_cases hascii : c.toNat < 128
  · rw [encodeChar_ascii hascii, List.mem_singleton] at hbyte
    rw [hbyte, toNat_ofNat_of_lt (by omega)]
  · obtain ⟨first, rest, heq, hfirst, -, hrest⟩ := encodeChar_of_not_ascii (Nat.le_of_not_lt hascii)
    rw [heq] at hbyte
    rcases List.mem_cons.mp hbyte with rfl | hmem
    · omega
    · have hle := (hrest b hmem).1
      omega

end Utf8
