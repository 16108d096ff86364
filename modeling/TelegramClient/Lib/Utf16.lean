import TelegramClient.Lib.Utf8

/-! Texts of characters as units of 16 bits, and what bytes the units are. -/

namespace Utf16

open String (utf8EncodeChar)

/-- A character above the first 65536 is a pair of surrogates. -/
def encodeChar (c : Char) : List UInt16 :=
  if c.toNat < 0x10000 then [.ofNat c.toNat]
  else [.ofNat (0xD800 + (c.toNat - 0x10000) / 0x400),
    .ofNat (0xDC00 + (c.toNat - 0x10000) % 0x400)]

/-- The units of a text. -/
def encode (text : List Char) : List UInt16 := text.flatMap encodeChar

def isHigh (u : UInt16) : Bool := 0xD800 ≤ u.toNat && u.toNat < 0xDC00

def isLow (u : UInt16) : Bool := 0xDC00 ≤ u.toNat && u.toNat < 0xE000

/-- The units as bytes in UTF-8. A surrogate that is not in a pair becomes a question mark. -/
def toUtf8 : List UInt16 → List UInt8
  | [] => []
  | [u] => if isHigh u || isLow u then [0x3F] else utf8EncodeChar (.ofNat u.toNat)
  | u :: v :: rest =>
    if isHigh u && isLow v then
      utf8EncodeChar (.ofNat (0x10000 + (u.toNat - 0xD800) * 0x400 + (v.toNat - 0xDC00))) ++
        toUtf8 rest
    else if isHigh u || isLow u then 0x3F :: toUtf8 (v :: rest)
    else utf8EncodeChar (.ofNat u.toNat) ++ toUtf8 (v :: rest)

variable {c : Char} {text : List Char}

@[simp] theorem encode_nil : encode [] = [] := rfl

@[simp] theorem encode_cons : encode (c :: text) = encodeChar c ++ encode text := rfl

theorem encode_append (text text' : List Char) :
    encode (text ++ text') = encode text ++ encode text' := List.flatMap_append

theorem length_encodeChar (c : Char) :
    (encodeChar c).length = if c.toNat < 0x10000 then 1 else 2 := by
  rw [encodeChar]
  split <;> rfl

theorem encode_eq_nil_iff : encode text = [] ↔ text = [] := by
  constructor
  · intro h
    cases text with
    | nil => rfl
    | cons c text =>
      have hlength := length_encodeChar c
      rw [encode_cons, List.append_eq_nil_iff] at h
      rw [h.1] at hlength
      split at hlength <;> cases hlength
  · rintro rfl
    rfl

theorem toNat_ofNat_of_lt {n : Nat} (h : n < 0x10000) : (UInt16.ofNat n).toNat = n := by
  rw [UInt16.toNat_ofNat', Nat.mod_eq_of_lt h]

theorem toNat_lt (c : Char) : c.toNat < 0x110000 := by
  rcases c.valid with hlow | hhigh
  · exact Nat.lt_trans hlow (by decide)
  · exact hhigh.2

theorem not_surrogate (h : c.toNat < 0x10000) :
    isHigh (.ofNat c.toNat) = false ∧ isLow (.ofNat c.toNat) = false := by
  have hvalid : c.toNat < 0xD800 ∨ 0xDFFF < c.toNat := c.valid.imp id And.left
  rw [isHigh, isLow, toNat_ofNat_of_lt h]
  simp only [Bool.and_eq_false_iff, decide_eq_false_iff_not]
  omega

theorem toUtf8_encodeChar_append (c : Char) (units : List UInt16) :
    toUtf8 (encodeChar c ++ units) = utf8EncodeChar c ++ toUtf8 units := by
  rw [encodeChar]
  split
  · next h =>
    obtain ⟨hhigh, hlow⟩ := not_surrogate h
    cases units with
    | nil => simp [toUtf8, hhigh, hlow, Nat.mod_eq_of_lt h]
    | cons v rest => simp [toUtf8, hhigh, hlow, Nat.mod_eq_of_lt h]
  · next h =>
    have hmax := toNat_lt c
    have hhigh : (UInt16.ofNat (0xD800 + (c.toNat - 0x10000) / 0x400)).toNat = _ :=
      toNat_ofNat_of_lt (by omega)
    have hlow : (UInt16.ofNat (0xDC00 + (c.toNat - 0x10000) % 0x400)).toNat = _ :=
      toNat_ofNat_of_lt (by omega)
    have hpair : (isHigh (.ofNat (0xD800 + (c.toNat - 0x10000) / 0x400)) &&
        isLow (.ofNat (0xDC00 + (c.toNat - 0x10000) % 0x400))) = true := by
      rw [isHigh, isLow, hhigh, hlow]
      simp only [Bool.and_eq_true, decide_eq_true_eq]
      omega
    have hvalue : 0x10000 + (0xD800 + (c.toNat - 0x10000) / 0x400 - 0xD800) * 0x400 +
        (0xDC00 + (c.toNat - 0x10000) % 0x400 - 0xDC00) = c.toNat := by omega
    rw [List.cons_append, List.cons_append, List.nil_append, toUtf8, if_pos hpair, hhigh, hlow,
      hvalue, Char.ofNat_toNat]

theorem toUtf8_encode (text : List Char) : toUtf8 (encode text) = Utf8.encode text := by
  induction text with
  | nil => rfl
  | cons c text ih => rw [encode_cons, toUtf8_encodeChar_append, ih, Utf8.encode_cons]

/-! ### Units and bytes -/

theorem length_encodeChar_le (c : Char) :
    (encodeChar c).length ≤ (utf8EncodeChar c).length ∧
      ((encodeChar c).length = (utf8EncodeChar c).length ↔ c.toNat < 128) := by
  rw [length_encodeChar, String.length_utf8EncodeChar, Char.utf8Size]
  change (if c.val.toNat < 0x10000 then 1 else 2) ≤ _ ∧ (_ = _ ↔ c.val.toNat < 128)
  simp only [UInt32.le_iff_toNat_le]
  split_ifs <;> simp at * <;> omega

theorem length_encode_le (text : List Char) :
    (encode text).length ≤ (Utf8.encode text).length ∧
      ((encode text).length = (Utf8.encode text).length ↔ ∀ c ∈ text, c.toNat < 128) := by
  induction text with
  | nil => simp
  | cons c text ih =>
    obtain ⟨hle, hiff⟩ := ih
    obtain ⟨hchar, hascii⟩ := length_encodeChar_le c
    rw [encode_cons, Utf8.encode_cons, List.length_append, List.length_append, List.forall_mem_cons,
      ← hiff, ← hascii]
    omega

/-! ### Characters by their units -/

/-- The characters in the first `n` units. -/
def takeUnits : Nat → List Char → List Char
  | _, [] => []
  | n, c :: text =>
    if (encodeChar c).length ≤ n then c :: takeUnits (n - (encodeChar c).length) text else []

/-- The characters that are not in the first `n` units. -/
def dropUnits : Nat → List Char → List Char
  | _, [] => []
  | n, c :: text =>
    if (encodeChar c).length ≤ n then dropUnits (n - (encodeChar c).length) text else c :: text

theorem takeUnits_append_dropUnits (n : Nat) (text : List Char) :
    takeUnits n text ++ dropUnits n text = text := by
  induction text generalizing n with
  | nil => rfl
  | cons c text ih =>
    rw [takeUnits, dropUnits]
    split
    · rw [List.cons_append, ih]
    · rfl

theorem length_encodeChar_pos (c : Char) : 0 < (encodeChar c).length := by
  rw [length_encodeChar]
  split <;> decide

theorem takeUnits_length (text rest : List Char) :
    takeUnits (encode text).length (text ++ rest) = text := by
  induction text with
  | nil =>
    cases rest with
    | nil => rfl
    | cons c rest =>
      have hpos := length_encodeChar_pos c
      rw [List.nil_append, takeUnits, if_neg]
      rw [encode_nil, List.length_nil]
      omega
  | cons c text ih =>
    rw [encode_cons, List.length_append, List.cons_append, takeUnits, if_pos (by omega),
      Nat.add_sub_cancel_left, ih]

theorem dropUnits_length (text rest : List Char) :
    dropUnits (encode text).length (text ++ rest) = rest := by
  have h := takeUnits_append_dropUnits (encode text).length (text ++ rest)
  rw [takeUnits_length] at h
  exact List.append_cancel_left h

/-- A place that is not in a surrogate pair. -/
def IsBoundary (text : List Char) (n : Nat) : Prop :=
  ∃ before after, text = before ++ after ∧ (encode before).length = n

theorem IsBoundary.of_append {text rest : List Char} {n : Nat} (h : IsBoundary (text ++ rest) n)
    (hle : (encode text).length ≤ n) : IsBoundary rest (n - (encode text).length) := by
  obtain ⟨before, after, heq, hn⟩ := h
  cases List.append_eq_append_iff.mp heq with
  | inl h =>
    obtain ⟨middle, rfl, rfl⟩ := h
    refine ⟨middle, after, rfl, ?_⟩
    rw [← hn, encode_append, List.length_append, Nat.add_sub_cancel_left]
  | inr h =>
    obtain ⟨middle, rfl, rfl⟩ := h
    refine ⟨[], _, rfl, ?_⟩
    rw [encode_append, List.length_append] at hle ⊢
    rw [encode_nil, List.length_nil]
    omega

end Utf16
