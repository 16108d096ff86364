import Mathlib

/-! Texts of characters as bytes in UTF-8. -/

namespace Utf8

open String (utf8EncodeChar)

/-- The bytes of a text. -/
def encode (text : List Char) : List UInt8 := text.flatMap utf8EncodeChar

variable {c d : Char} {l m : List UInt8} {text : List Char}

@[simp] theorem encode_nil : encode [] = [] := rfl

@[simp] theorem encode_cons : encode (c :: text) = utf8EncodeChar c ++ encode text := rfl

theorem encode_append (text text' : List Char) :
    encode (text ++ text') = encode text ++ encode text' := List.flatMap_append

theorem encodeChar_append_inj (h : utf8EncodeChar c ++ l = utf8EncodeChar d ++ m) :
    c = d ∧ l = m := by
  have hbytes := congrArg List.toByteArray h
  rw [List.toByteArray_append, List.toByteArray_append] at hbytes
  have hsame : c = d := by
    have hc := @ByteArray.utf8DecodeChar?_utf8EncodeChar_append l.toByteArray c
    rw [hbytes, ByteArray.utf8DecodeChar?_utf8EncodeChar_append] at hc
    exact (Option.some.inj hc).symm
  subst hsame
  exact ⟨rfl, List.append_cancel_left h⟩

theorem encodeChar_inj (h : utf8EncodeChar c = utf8EncodeChar d) : c = d :=
  (encodeChar_append_inj (l := []) (m := []) (by rw [h])).1

theorem encode_injective : Function.Injective encode := by
  intro text
  induction text with
  | nil =>
    intro text' h
    cases text' with
    | nil => rfl
    | cons d rest =>
      rw [encode_nil, encode_cons] at h
      exact absurd (List.append_eq_nil_iff.mp h.symm).1 String.utf8EncodeChar_ne_nil
  | cons c text ih =>
    intro text' h
    cases text' with
    | nil =>
      rw [encode_nil, encode_cons] at h
      exact absurd (List.append_eq_nil_iff.mp h).1 String.utf8EncodeChar_ne_nil
    | cons d rest =>
      rw [encode_cons, encode_cons] at h
      obtain ⟨rfl, hrest⟩ := encodeChar_append_inj h
      rw [ih hrest]

theorem toNat_ofNat_of_lt {n : Nat} (h : n < 256) : (UInt8.ofNat n).toNat = n := by
  rw [UInt8.toNat_ofNat', Nat.mod_eq_of_lt h]

theorem encodeChar_ascii (h : c.toNat < 128) : utf8EncodeChar c = [.ofNat c.toNat] := by
  rw [utf8EncodeChar]
  exact if_pos (Nat.le_of_lt_succ h)

/-- The bytes behind the first one, `n` of them. -/
def Continues (l : List UInt8) (n : Nat) : Prop :=
  l.length = n ∧ ∀ b ∈ l, 0x80 ≤ b.toNat ∧ b.toNat < 0xC0

theorem continues_one (x : Nat) : Continues [.ofNat (x % 0x40 + 0x80)] 1 := by
  refine ⟨rfl, ?_⟩
  intro b hb
  rw [List.mem_singleton.mp hb, toNat_ofNat_of_lt (by omega)]
  omega

theorem Continues.cons {n : Nat} (h : Continues l n) (x : Nat) :
    Continues (.ofNat (x % 0x40 + 0x80) :: l) (n + 1) := by
  refine ⟨by rw [List.length_cons, h.1], ?_⟩
  intro b hb
  rw [List.mem_cons] at hb
  cases hb with
  | inl hsame =>
    rw [hsame, toNat_ofNat_of_lt (by omega)]
    omega
  | inr hrest => exact h.2 b hrest

/-- How many bytes follow a first one. -/
def following (first : UInt8) : Nat :=
  if first.toNat < 0xE0 then 1 else if first.toNat < 0xF0 then 2 else 3

theorem encodeChar_of_not_ascii (h : 128 ≤ c.toNat) :
    ∃ first rest, utf8EncodeChar c = first :: rest ∧ 0xC0 ≤ first.toNat ∧
      Continues rest (following first) := by
  have hmax : c.toNat < 0x110000 := by
    rcases c.valid with hlow | hhigh
    · exact Nat.lt_trans hlow (by decide)
    · exact hhigh.2
  rw [utf8EncodeChar]
  change 128 ≤ c.val.toNat at h
  change c.val.toNat < 0x110000 at hmax
  rw [if_neg (by omega)]
  generalize c.val.toNat = v at h hmax ⊢
  split
  · refine ⟨_, _, rfl, ?_, ?_⟩
    · rw [toNat_ofNat_of_lt (by omega)]
      omega
    · rw [following, toNat_ofNat_of_lt (by omega), if_pos (by omega)]
      exact continues_one v
  · split
    · refine ⟨_, _, rfl, ?_, ?_⟩
      · rw [toNat_ofNat_of_lt (by omega)]
        omega
      · rw [following, toNat_ofNat_of_lt (by omega), if_neg (by omega), if_pos (by omega)]
        exact (continues_one v).cons (v / 64)
    · refine ⟨_, _, rfl, ?_, ?_⟩
      · rw [toNat_ofNat_of_lt (by omega)]
        omega
      · rw [following, toNat_ofNat_of_lt (by omega), if_neg (by omega), if_neg (by omega)]
        exact ((continues_one v).cons (v / 64)).cons (v / 4096)

/-- The first byte of a character is not one that continues another. -/
theorem encodeChar_first {b : UInt8} (h : utf8EncodeChar c ++ l = b :: m) :
    b.toNat < 0x80 ∨ 0xC0 ≤ b.toNat := by
  by_cases hascii : c.toNat < 128
  · left
    rw [encodeChar_ascii hascii] at h
    have hb : .ofNat c.toNat = b := (List.cons.inj h).1
    rw [← hb, toNat_ofNat_of_lt (by omega)]
    exact hascii
  · right
    obtain ⟨first, rest, heq, hfirst, -⟩ := encodeChar_of_not_ascii (Nat.le_of_not_lt hascii)
    rw [heq] at h
    rw [← (List.cons.inj h).1]
    exact hfirst

theorem encodeChar_eq_ascii {b : UInt8} (hb : b.toNat < 0x80) (h : utf8EncodeChar c ++ l = b :: m) :
    c.toNat = b.toNat ∧ l = m := by
  by_cases hascii : c.toNat < 128
  · rw [encodeChar_ascii hascii] at h
    obtain ⟨hfirst, hrest⟩ := List.cons.inj h
    rw [← hfirst, toNat_ofNat_of_lt (by omega)]
    exact ⟨rfl, hrest⟩
  · obtain ⟨first, rest, heq, hfirst, -⟩ := encodeChar_of_not_ascii (Nat.le_of_not_lt hascii)
    rw [heq] at h
    rw [← (List.cons.inj h).1] at hb
    omega

end Utf8
