import TelegramClient.Lib.Json
import TelegramClient.Export.Json

/-! Strings are written as JSON, if and only if they have no separator and no control character
that is written by its code. -/

namespace TelegramClient.Export.JsonWriter

open Utf8 Tokens Json
open String (utf8EncodeChar)

/-- The characters that are written as JSON. -/
def isClean (c : Char) : Bool :=
  !isSeparator c && (0x20 ≤ c.toNat || c = '\n' || c = '\r' || c = '\t')

/-- The reader comes behind a value, or it stops. -/
def Good (l : Bytes) : Prop := ∀ s : State, s.isOutside = true → scan s l = some .ready

def Bad (l : Bytes) : Prop := ∀ s : State, s.isOutside = true → scan s l = none

variable {c : Char} {l : Bytes} {text : List Char} {s : State}

theorem Good.not_bad (h : Good l) : ¬ Bad l := by
  intro hbad
  have hready := h .opened rfl
  rw [hbad .opened rfl] at hready
  cases hready

theorem good_of_isText {v : Value} (h : IsText l v) : Good l := fun _ hs => h.scan hs

/-! ### Strings -/

theorem escape_copies : Copies (ascii "\\u2028") (ascii "\\u2029") escape := by
  constructor
  intro ch rest hhigh
  have hne : ∀ b : UInt8, b.toNat < 0x80 → ch ≠ b := by
    intro b hb heq
    rw [heq] at hhigh
    omega
  have hlt : ¬ ch < 32 := by
    intro hlt
    have hless : ch.toNat < 32 := hlt
    omega
  rw [escape, if_neg (hne _ (by decide)), if_neg (hne _ (by decide)), if_neg (hne _ (by decide)),
    if_neg (hne _ (by decide)), if_neg (hne _ (by decide)), if_neg hlt]

/-- What is written for a character in ASCII does not depend on those behind it. -/
theorem escape_ascii (hc : c.toNat < 128) (hclean : isClean c = true) :
    ∃ t, CharToken t c ∧ ∀ rest, escape (.ofNat c.toNat) rest = t := by
  have hcode : ∀ (d : Char) (b : UInt8), b.toNat = d.toNat → c ≠ d →
      UInt8.ofNat c.toNat ≠ b := by
    intro d b hb hne heq
    have hsame := congrArg UInt8.toNat heq
    rw [toNat_ofNat_of_lt (by omega), hb] at hsame
    exact hne (Char.toNat_inj.mp hsame)
  by_cases hline : c = '\n'
  · subst hline
    exact ⟨_, .escaped 0x6E _ (by decide), fun _ => rfl⟩
  by_cases hreturn : c = '\r'
  · subst hreturn
    exact ⟨_, .escaped 0x72 _ (by decide), fun _ => rfl⟩
  by_cases htab : c = '\t'
  · subst htab
    exact ⟨_, .escaped 0x74 _ (by decide), fun _ => rfl⟩
  by_cases hquote : c = '"'
  · subst hquote
    exact ⟨_, .escaped 0x22 _ (by decide), fun _ => rfl⟩
  by_cases hbackslash : c = '\\'
  · subst hbackslash
    exact ⟨_, .escaped 0x5C _ (by decide), fun _ => rfl⟩
  have hle : 0x20 ≤ c.toNat := by
    simpa [isClean, hline, hreturn, htab] using (Bool.and_eq_true_iff.mp hclean).2
  refine ⟨_, .unescaped c hle hquote hbackslash, ?_⟩
  intro rest
  have hlt : ¬ UInt8.ofNat c.toNat < 32 := by
    intro hlt
    have hless : (UInt8.ofNat c.toNat).toNat < 32 := hlt
    rw [toNat_ofNat_of_lt (by omega)] at hless
    omega
  have hne : UInt8.ofNat c.toNat ≠ 0xE2 := by
    intro heq
    have hsame := congrArg UInt8.toNat heq
    rw [toNat_ofNat_of_lt (by omega)] at hsame
    rw [hsame] at hc
    exact absurd hc (by decide)
  rw [escape, if_neg (hcode '\n' _ (by decide) hline), if_neg (hcode '\r' _ (by decide) hreturn),
    if_neg (hcode '\t' _ (by decide) htab), if_neg (hcode '"' _ (by decide) hquote),
    if_neg (hcode '\\' _ (by decide) hbackslash), if_neg hlt, appendSeparator_of_ne hne,
    ← encodeChar_ascii hc]

theorem append_clean (hclean : isClean c = true) : ∃ t, CharToken t c ∧ ∀ text,
    appendBytes escape (encode (c :: text)) = t ++ appendBytes escape (encode text) := by
  by_cases hascii : c.toNat < 128
  · obtain ⟨t, ht, heq⟩ := escape_ascii hascii hclean
    refine ⟨t, ht, ?_⟩
    intro text
    rw [encode_cons, encodeChar_ascii hascii]
    exact congrArg (· ++ _) (heq _)
  · have hne : ∀ d : Char, d.toNat < 128 → c ≠ d := by
      intro d hd heq
      rw [heq] at hascii
      exact hascii hd
    refine ⟨utf8EncodeChar c, .unescaped c (by omega) (hne _ (by decide)) (hne _ (by decide)), ?_⟩
    intro text
    have hseparator : isSeparator c = false := by
      simpa using (Bool.and_eq_true_iff.mp hclean).1
    exact appendBytes_encodeChar escape_copies (by omega) hseparator

theorem scan_unclean (hclean : isClean c = false) (text : List Char) :
    scan (.inside 0) (appendBytes escape (encode (c :: text))) = none := by
  cases hseparator : isSeparator c with
  | true =>
    obtain ⟨third, heq⟩ := @appendBytes_separator _ _ (encode text) escape c escape_copies hseparator
    rw [encode_cons, heq]
    have htoken : scan (.inside 0) (if c = '\u2028' then ascii "\\u2028" else ascii "\\u2029") =
        some (.inside 0) := by
      split <;> decide
    rw [scan_append htoken]
    rfl
  | false =>
    have hcontrol : c.toNat < 0x20 ∧ c ≠ '\n' ∧ c ≠ '\r' ∧ c ≠ '\t' := by
      simpa [isClean, hseparator, and_assoc] using hclean
    obtain ⟨hlt, hline, hreturn, htab⟩ := hcontrol
    have hcode : ∀ (d : Char) (b : UInt8), b.toNat = d.toNat → c ≠ d →
        UInt8.ofNat c.toNat ≠ b := by
      intro d b hb hne heq
      have hsame := congrArg UInt8.toNat heq
      rw [toNat_ofNat_of_lt (by omega), hb] at hsame
      exact hne (Char.toNat_inj.mp hsame)
    have hne : ∀ d : Char, 0x20 ≤ d.toNat → c ≠ d := by
      intro d hd heq
      rw [heq] at hlt
      omega
    have hless : UInt8.ofNat c.toNat < 32 := by
      show (UInt8.ofNat c.toNat).toNat < 32
      rw [toNat_ofNat_of_lt (by omega)]
      omega
    rw [encode_cons, encodeChar_ascii (by omega), List.singleton_append, appendBytes_cons, escape,
      if_neg (hcode '\n' _ (by decide) hline), if_neg (hcode '\r' _ (by decide) hreturn),
      if_neg (hcode '\t' _ (by decide) htab), if_neg (hcode '"' _ (by decide) (hne _ (by decide))),
      if_neg (hcode '\\' _ (by decide) (hne _ (by decide))), if_pos hless]
    rfl

theorem reads_escape (h : ∀ c ∈ text, isClean c = true) :
    Reads CharToken (appendBytes escape (encode text)) text := by
  induction text with
  | nil => exact .nil
  | cons c text ih =>
    obtain ⟨hc, htext⟩ := List.forall_mem_cons.mp h
    obtain ⟨t, ht, heq⟩ := append_clean hc
    rw [heq]
    exact .cons t _ c text ht (ih htext)

theorem scan_escape_none (h : ∃ c ∈ text, isClean c = false) :
    scan (.inside 0) (appendBytes escape (encode text)) = none := by
  induction text with
  | nil =>
    obtain ⟨c, hc, -⟩ := h
    cases hc
  | cons c text ih =>
    cases hclean : isClean c with
    | true =>
      obtain ⟨t, ht, heq⟩ := append_clean hclean
      rw [heq, scan_append (scan_token ht)]
      apply ih
      obtain ⟨d, hd, hunclean⟩ := h
      cases List.mem_cons.mp hd with
      | inl hsame =>
        rw [hsame, hclean] at hunclean
        cases hunclean
      | inr hd => exact ⟨d, hd, hunclean⟩
    | false => exact scan_unclean hclean text

theorem serializeString_isString (h : ∀ c ∈ text, isClean c = true) :
    IsString (serializeString (encode text)) text :=
  ⟨_, rfl, reads_escape h⟩

theorem serializeString_bad (h : ∃ c ∈ text, isClean c = false) :
    Bad (serializeString (encode text)) := by
  intro s hs
  have hfirst : step s 0x22 = some (.inside 0) := by cases s <;> first | rfl | cases hs
  rw [serializeString, List.cons_append, scan_cons hfirst, scan_append_none (scan_escape_none h)]

theorem clean_or_unclean (text : List Char) :
    (∀ c ∈ text, isClean c = true) ∨ ∃ c ∈ text, isClean c = false := by
  by_cases h : ∀ c ∈ text, isClean c = true
  · exact .inl h
  · right
    simpa using h

theorem serializeString_good_iff :
    Good (serializeString (encode text)) ↔ ∀ c ∈ text, isClean c = true := by
  constructor
  · intro hgood
    cases clean_or_unclean text with
    | inl h => exact h
    | inr h => exact absurd (serializeString_bad h) hgood.not_bad
  · intro h s hs
    exact scan_string (serializeString_isString h) hs

theorem isString_iff : IsString (serializeString (encode text)) text ↔
    ∀ c ∈ text, isClean c = true := by
  constructor
  · intro h
    exact serializeString_good_iff.mp fun s hs => scan_string h hs
  · exact serializeString_isString

end TelegramClient.Export.JsonWriter
