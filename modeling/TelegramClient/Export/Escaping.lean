import TelegramClient.Lib.Utf8

/-! The loops of both exporters over the bytes of a string (`SerializeString` of
`export/output/export_output_json.cpp` and of `export/output/export_output_html.cpp`). -/

namespace TelegramClient.Export

open Utf8
open String (utf8EncodeChar)

abbrev Bytes := List UInt8

/-- What the loop appends for each byte, which may depend on the bytes behind it. -/
def appendBytes (f : UInt8 → Bytes → Bytes) : Bytes → Bytes
  | [] => []
  | ch :: rest => f ch rest ++ appendBytes f rest

/-- The first byte of `separator`, the three bytes of a line or paragraph separator, is replaced. -/
def appendSeparator (line paragraph : Bytes) (ch : UInt8) (rest : Bytes) : Bytes :=
  match rest with
  | second :: third :: _ =>
    if ch = 0xE2 && second = 0x80 then
      if third = 0xA8 then line else if third = 0xA9 then paragraph else [ch]
    else [ch]
  | _ => [ch]

def isSeparator (c : Char) : Bool := c = '\u2028' || c = '\u2029'

/-- The second digit of a control character. -/
def hexDigit (left : UInt8) : UInt8 := if left ≥ 10 then 0x41 + (left - 10) else 0x30 + left

/-- A loop over bytes that copies those of characters that are not in ASCII. -/
structure Copies (line paragraph : Bytes) (f : UInt8 → Bytes → Bytes) : Prop where
  high : ∀ ch rest, 0x80 ≤ ch.toNat → f ch rest = appendSeparator line paragraph ch rest

variable {line paragraph rest : Bytes} {f : UInt8 → Bytes → Bytes} {ch : UInt8} {c : Char}

theorem appendBytes_cons : appendBytes f (ch :: rest) = f ch rest ++ appendBytes f rest := rfl

theorem appendSeparator_of_ne (h : ch ≠ 0xE2) : appendSeparator line paragraph ch rest = [ch] := by
  unfold appendSeparator
  split
  · rw [if_neg (by simp [h])]
  · rfl

theorem appendBytes_continues {l : Bytes} {n : Nat} (hf : Copies line paragraph f)
    (h : Continues l n) : appendBytes f (l ++ rest) = l ++ appendBytes f rest := by
  induction l generalizing n with
  | nil => rfl
  | cons b l ih =>
    have hb := h.2 b List.mem_cons_self
    have hne : b ≠ 0xE2 := by
      intro heq
      rw [heq] at hb
      exact absurd hb.2 (by decide)
    rw [List.cons_append, appendBytes_cons, hf.high b _ hb.1, appendSeparator_of_ne hne,
      @ih l.length ⟨rfl, fun b hb => h.2 b (List.mem_cons_of_mem _ hb)⟩]
    rfl

theorem encodeChar_lineSeparator : utf8EncodeChar '\u2028' = [0xE2, 0x80, 0xA8] := by decide

theorem encodeChar_paragraphSeparator : utf8EncodeChar '\u2029' = [0xE2, 0x80, 0xA9] := by decide

theorem continues_two {l : Bytes} (h : Continues l 2) : ∃ second third, l = [second, third] := by
  rcases l with _ | ⟨second, _ | ⟨third, _ | ⟨fourth, l⟩⟩⟩
  · cases h.1
  · cases h.1
  · exact ⟨second, third, rfl⟩
  · cases h.1

theorem appendBytes_encodeChar (hf : Copies line paragraph f) (hascii : 128 ≤ c.toNat)
    (hc : isSeparator c = false) :
    appendBytes f (utf8EncodeChar c ++ rest) = utf8EncodeChar c ++ appendBytes f rest := by
  obtain ⟨first, l, heq, hfirst, hl⟩ := encodeChar_of_not_ascii hascii
  have hcopied : f first (l ++ rest) = [first] := by
    rw [hf.high first _ (by omega)]
    by_cases hE2 : first = 0xE2
    · subst hE2
      obtain ⟨second, third, rfl⟩ := continues_two hl
      have hline : ¬ (second = 0x80 ∧ third = 0xA8) := by
        intro h
        rw [h.1, h.2, ← encodeChar_lineSeparator] at heq
        rw [encodeChar_inj heq] at hc
        revert hc
        decide
      have hparagraph : ¬ (second = 0x80 ∧ third = 0xA9) := by
        intro h
        rw [h.1, h.2, ← encodeChar_paragraphSeparator] at heq
        rw [encodeChar_inj heq] at hc
        revert hc
        decide
      by_cases hsecond : second = 0x80
      · have hthird : third ≠ 0xA8 := fun h => hline ⟨hsecond, h⟩
        have hthird' : third ≠ 0xA9 := fun h => hparagraph ⟨hsecond, h⟩
        simp [appendSeparator, hthird, hthird']
      · simp [appendSeparator, hsecond]
    · exact appendSeparator_of_ne hE2
  rw [heq, List.cons_append, appendBytes_cons, hcopied, appendBytes_continues hf hl]
  rfl

/-- Of a separator the first byte is replaced, and the others are copied. -/
theorem appendBytes_separator (hf : Copies line paragraph f) (hc : isSeparator c = true) :
    ∃ third, appendBytes f (utf8EncodeChar c ++ rest) =
      (if c = '\u2028' then line else paragraph) ++ 0x80 :: third :: appendBytes f rest := by
  have hcontinues : ∀ third : UInt8, 0x80 ≤ third.toNat → third.toNat < 0xC0 →
      appendBytes f (0x80 :: third :: rest) = 0x80 :: third :: appendBytes f rest := by
    intro third hle hlt
    apply appendBytes_continues (l := [0x80, third]) (n := 2) hf
    refine ⟨rfl, ?_⟩
    intro b hb
    rw [List.mem_cons, List.mem_singleton] at hb
    cases hb with
    | inl hsame =>
      rw [hsame]
      decide
    | inr hsame =>
      rw [hsame]
      exact ⟨hle, hlt⟩
  rw [isSeparator, Bool.or_eq_true, decide_eq_true_iff, decide_eq_true_iff] at hc
  cases hc with
  | inl hline =>
    subst hline
    refine ⟨0xA8, ?_⟩
    rw [encodeChar_lineSeparator]
    show f 0xE2 (0x80 :: 0xA8 :: rest) ++ appendBytes f (0x80 :: 0xA8 :: rest) = _
    rw [hf.high _ _ (by decide), hcontinues _ (by decide) (by decide)]
    simp [appendSeparator]
  | inr hparagraph =>
    subst hparagraph
    refine ⟨0xA9, ?_⟩
    rw [encodeChar_paragraphSeparator]
    show f 0xE2 (0x80 :: 0xA9 :: rest) ++ appendBytes f (0x80 :: 0xA9 :: rest) = _
    rw [hf.high _ _ (by decide), hcontinues _ (by decide) (by decide)]
    simp [appendSeparator]

end TelegramClient.Export
