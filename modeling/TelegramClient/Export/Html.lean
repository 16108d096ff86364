import TelegramClient.Export.Escaping
import TelegramClient.Lib.Tokens

/-! How the exporter writes strings into HTML (`SerializeString` of
`export/output/export_output_html.cpp`). -/

namespace TelegramClient.Export

open Utf8 Tokens
open String (utf8EncodeChar)

/-- The bytes of a literal. -/
def ascii (literal : String) : Bytes := encode literal.toList

namespace Html

def escape (ch : UInt8) (rest : Bytes) : Bytes :=
  if ch = 0x0A then ascii "<br>"
  else if ch = 0x22 then ascii "&quot;"
  else if ch = 0x26 then ascii "&amp;"
  else if ch = 0x27 then ascii "&apos;"
  else if ch = 0x3C then ascii "&lt;"
  else if ch = 0x3E then ascii "&gt;"
  else if ch < 32 then ascii "&#x" ++ [(0x30 : UInt8) + (ch >>> 4), hexDigit (ch &&& 0x0F), 0x3B]
  else appendSeparator (ascii "<br>") (ascii "<br>") ch rest

def serializeString (value : Bytes) : Bytes := appendBytes escape value

/-! ### What HTML means -/

/-- The characters that stand for themselves. -/
def isPlain (c : Char) : Bool := c ∉ ['<', '>', '&', '"', '\'']

/-- The value of a digit of a numeric entity. -/
def digitValue (b : UInt8) : Option Nat :=
  if 0x30 ≤ b.toNat ∧ b.toNat ≤ 0x39 then some (b.toNat - 0x30)
  else if 0x41 ≤ b.toNat ∧ b.toNat ≤ 0x46 then some (b.toNat - 0x41 + 10)
  else if 0x61 ≤ b.toNat ∧ b.toNat ≤ 0x66 then some (b.toNat - 0x61 + 10)
  else none

def namedEntities : List (Bytes × Char) :=
  [(ascii "&quot;", '"'), (ascii "&amp;", '&'), (ascii "&apos;", '\''), (ascii "&lt;", '<'),
    (ascii "&gt;", '>')]

/-- Pieces of HTML without elements other than line breaks. -/
inductive Token : Bytes → Char → Prop
  | plain (c : Char) (hc : isPlain c = true) : Token (utf8EncodeChar c) c
  | line : Token (ascii "<br>") '\n'
  | named (name : Bytes) (c : Char) (hname : (name, c) ∈ namedEntities) : Token name c
  | numeric (high low : UInt8) (n m : Nat) (c : Char) (hhigh : digitValue high = some n)
      (hlow : digitValue low = some m) (hc : c.toNat = n * 16 + m) :
      Token (ascii "&#x" ++ [high, low, 0x3B]) c

/-- The text of HTML. -/
abbrev IsHtml : Bytes → List Char → Prop := Reads Token

/-- Line and paragraph separators are new lines. -/
def newline (c : Char) : Char := if isSeparator c then '\n' else c

variable {c d : Char} {l m rest : Bytes} {b : UInt8}

theorem isPlain_of_not_ascii (h : 128 ≤ c.toNat) : isPlain c = true := by
  have hne : ∀ d : Char, d.toNat < 128 → c ≠ d := by
    intro d hd heq
    rw [heq] at h
    omega
  simp [isPlain, hne '<' (by decide), hne '>' (by decide), hne '&' (by decide),
    hne '"' (by decide), hne '\'' (by decide)]

theorem plain_ne_special (hc : isPlain c = true) (hd : isPlain d = false)
    (h : utf8EncodeChar c ++ l = .ofNat d.toNat :: m) : False := by
  have hascii : d.toNat < 128 := by
    by_contra hge
    rw [isPlain_of_not_ascii (by omega)] at hd
    cases hd
  have hcode := (encodeChar_eq_ascii (by rw [toNat_ofNat_of_lt (by omega)]; exact hascii) h).1
  rw [toNat_ofNat_of_lt (by omega)] at hcode
  rw [Char.toNat_inj.mp hcode, hd] at hc
  cases hc

/-- Entities start with `&` and a character that tells the numeric ones. -/
theorem named_cons (h : (l, c) ∈ namedEntities) :
    ∃ second tail, l = 0x26 :: second :: tail ∧ second ≠ 0x23 := by
  simp only [namedEntities, List.mem_cons, List.not_mem_nil, or_false, Prod.mk.injEq] at h
  rcases h with h | h | h | h | h
  · exact ⟨_, _, h.1.trans rfl, by decide⟩
  · exact ⟨_, _, h.1.trans rfl, by decide⟩
  · exact ⟨_, _, h.1.trans rfl, by decide⟩
  · exact ⟨_, _, h.1.trans rfl, by decide⟩
  · exact ⟨_, _, h.1.trans rfl, by decide⟩

theorem named_unique {name name' : Bytes} (h : (name, c) ∈ namedEntities)
    (h' : (name', d) ∈ namedEntities) (heq : name ++ l = name' ++ m) : name = name' ∧ c = d := by
  have hall : ∀ a ∈ namedEntities, ∀ a' ∈ namedEntities,
      a.1.take 4 = a'.1.take 4 → a = a' := by decide
  have hlen : ∀ a ∈ namedEntities, 4 ≤ a.1.length := by decide
  have htake := congrArg (List.take 4) heq
  rw [List.take_append_of_le_length (hlen _ h), List.take_append_of_le_length (hlen _ h')] at htake
  have hsame := hall _ h _ h' htake
  exact ⟨congrArg Prod.fst hsame, congrArg Prod.snd hsame⟩

theorem token_prefixFree : PrefixFree Token := by
  constructor
  · intro t c ht
    cases ht with
    | plain c hc => exact String.utf8EncodeChar_ne_nil
    | line => decide
    | named name c hname =>
      obtain ⟨second, tail, rfl, -⟩ := named_cons hname
      exact List.cons_ne_nil _ _
    | numeric high low n m c => exact List.cons_ne_nil _ _
  · intro t t' c c' l l' ht ht' heq
    cases ht with
    | plain c hc =>
      cases ht' with
      | plain d hd =>
        obtain ⟨rfl, -⟩ := encodeChar_append_inj heq
        exact ⟨rfl, rfl⟩
      | line => exact (plain_ne_special (d := '<') hc (by decide) heq).elim
      | named name d hname =>
        obtain ⟨second, tail, rfl, -⟩ := named_cons hname
        exact (plain_ne_special (d := '&') hc (by decide) heq).elim
      | numeric high low n m d => exact (plain_ne_special (d := '&') hc (by decide) heq).elim
    | line =>
      cases ht' with
      | plain d hd => exact (plain_ne_special (d := '<') hd (by decide) heq.symm).elim
      | line => exact ⟨rfl, rfl⟩
      | named name d hname =>
        obtain ⟨second, tail, rfl, -⟩ := named_cons hname
        exact absurd (List.cons.inj heq).1 (by decide)
      | numeric high low n m d => exact absurd (List.cons.inj heq).1 (by decide)
    | named name c hname =>
      cases ht' with
      | plain d hd =>
        obtain ⟨second, tail, rfl, -⟩ := named_cons hname
        exact (plain_ne_special (d := '&') hd (by decide) heq.symm).elim
      | line =>
        obtain ⟨second, tail, rfl, -⟩ := named_cons hname
        exact absurd (List.cons.inj heq).1 (by decide)
      | named name' d hname' => exact named_unique hname hname' heq
      | numeric high low n m d =>
        obtain ⟨second, tail, rfl, hsecond⟩ := named_cons hname
        exact absurd (List.cons.inj (List.cons.inj heq).2).1 hsecond
    | numeric high low n m c hhigh hlow hc =>
      cases ht' with
      | plain d hd => exact (plain_ne_special (d := '&') hd (by decide) heq.symm).elim
      | line => exact absurd (List.cons.inj heq).1 (by decide)
      | named name d hname =>
        obtain ⟨second, tail, rfl, hsecond⟩ := named_cons hname
        exact absurd (List.cons.inj (List.cons.inj heq).2).1 (Ne.symm hsecond)
      | numeric high' low' n' m' d hhigh' hlow' hd =>
        have hdigits : high :: low :: 0x3B :: l = high' :: low' :: 0x3B :: l' :=
          @List.append_cancel_left _ (ascii "&#x") _ _ heq
        obtain ⟨rfl, hrest⟩ := List.cons.inj hdigits
        obtain ⟨rfl, -⟩ := List.cons.inj hrest
        rw [hhigh, Option.some.injEq] at hhigh'
        rw [hlow, Option.some.injEq] at hlow'
        exact ⟨rfl, Char.toNat_inj.mp (by rw [hc, hd, hhigh', hlow'])⟩

theorem token_first (h : Token (b :: l) c) : b.toNat < 0x80 ∨ 0xC0 ≤ b.toNat := by
  generalize ht : b :: l = t at h
  cases h with
  | plain c hc => exact encodeChar_first (l := []) (by rw [List.append_nil, ← ht])
  | line => exact .inl (by rw [(List.cons.inj ht).1]; decide)
  | named name c hname =>
    obtain ⟨second, tail, rfl, -⟩ := named_cons hname
    exact .inl (by rw [(List.cons.inj ht).1]; decide)
  | numeric high low n m c => exact .inl (by rw [(List.cons.inj ht).1]; decide)

/-! ## Strings -/

theorem escape_copies : Copies (ascii "<br>") (ascii "<br>") escape := by
  constructor
  intro ch rest hhigh
  have hne : ∀ b : UInt8, b.toNat < 0x80 → ch ≠ b := by
    intro b hb heq
    rw [heq] at hhigh
    omega
  have hlt : ¬ ch < 32 := by
    intro hlt
    have hless : ch.toNat < 32 := hlt
    omega
  rw [escape, if_neg (hne _ (by decide)), if_neg (hne _ (by decide)), if_neg (hne _ (by decide)),
    if_neg (hne _ (by decide)), if_neg (hne _ (by decide)), if_neg (hne _ (by decide)),
    if_neg hlt]

theorem control_digits (h : b < 32) :
    ∃ n m, digitValue ((0x30 : UInt8) + (b >>> 4)) = some n ∧ digitValue (hexDigit (b &&& 0x0F)) = some m ∧
      b.toNat = n * 16 + m := by
  have hall : ∀ k < 32, digitValue ((0x30 : UInt8) + (UInt8.ofNat k >>> 4)) = some (k / 16) ∧
      digitValue (hexDigit (UInt8.ofNat k &&& 0x0F)) = some (k % 16) := by decide
  have hlt : b.toNat < 32 := h
  have hdigits := hall b.toNat hlt
  rw [UInt8.ofNat_toNat] at hdigits
  exact ⟨_, _, hdigits.1, hdigits.2, by omega⟩

/-- What is written for a byte below 128 does not depend on those behind it. -/
theorem escape_rest (hb : b.toNat < 0x80) (rest rest' : Bytes) : escape b rest = escape b rest' := by
  have hne : b ≠ 0xE2 := by
    intro heq
    rw [heq] at hb
    exact absurd hb (by decide)
  rw [escape, escape, appendSeparator_of_ne hne, appendSeparator_of_ne hne]

theorem escape_ascii (hc : c.toNat < 128) (rest : Bytes) :
    Token (escape (.ofNat c.toNat) rest) c := by
  have hcode : ∀ (d : Char) (b : UInt8), b.toNat = d.toNat → c ≠ d →
      UInt8.ofNat c.toNat ≠ b := by
    intro d b hb hne heq
    have hsame := congrArg UInt8.toNat heq
    rw [toNat_ofNat_of_lt (by omega), hb] at hsame
    exact hne (Char.toNat_inj.mp hsame)
  by_cases hline : c = '\n'
  · subst hline
    exact .line
  by_cases hquot : c = '"'
  · subst hquot
    exact .named (ascii "&quot;") _ (by decide)
  by_cases hamp : c = '&'
  · subst hamp
    exact .named (ascii "&amp;") _ (by decide)
  by_cases hapos : c = '\''
  · subst hapos
    exact .named (ascii "&apos;") _ (by decide)
  by_cases hlt : c = '<'
  · subst hlt
    exact .named (ascii "&lt;") _ (by decide)
  by_cases hgt : c = '>'
  · subst hgt
    exact .named (ascii "&gt;") _ (by decide)
  rw [escape, if_neg (hcode '\n' _ (by decide) hline), if_neg (hcode '"' _ (by decide) hquot),
    if_neg (hcode '&' _ (by decide) hamp), if_neg (hcode '\'' _ (by decide) hapos),
    if_neg (hcode '<' _ (by decide) hlt), if_neg (hcode '>' _ (by decide) hgt)]
  split
  next hcontrol =>
    obtain ⟨n, m, hhigh, hlow, hsum⟩ := control_digits hcontrol
    rw [toNat_ofNat_of_lt (by omega)] at hsum
    exact .numeric _ _ n m c hhigh hlow hsum
  next =>
    have hne : UInt8.ofNat c.toNat ≠ 0xE2 := by
      intro heq
      have hsame := congrArg UInt8.toNat heq
      rw [toNat_ofNat_of_lt (by omega)] at hsame
      rw [hsame] at hc
      exact absurd hc (by decide)
    rw [appendSeparator_of_ne hne, ← encodeChar_ascii hc]
    exact .plain c (by simp [isPlain, hlt, hgt, hamp, hquot, hapos])

/-- A string is written so that it is read back if and only if no separator is in it. -/
theorem serializeString_iff (value : List Char) :
    IsHtml (serializeString (encode value)) (value.map newline) ↔
      ∀ c ∈ value, isSeparator c = false := by
  apply @reads_iff _ _ _ _ token_prefixFree (fun text => serializeString (encode text)) _ _ rfl
  · intro c hc
    have hnewline : newline c = c := by rw [newline, hc, if_neg Bool.false_ne_true]
    rw [hnewline]
    by_cases hascii : c.toNat < 128
    · refine ⟨escape (.ofNat c.toNat) [], escape_ascii hascii [], ?_⟩
      intro rest
      rw [encode_cons, encodeChar_ascii hascii]
      exact congrArg (· ++ _) (escape_rest (by rw [toNat_ofNat_of_lt (by omega)]; exact hascii) _ [])
    · refine ⟨utf8EncodeChar c, .plain c (isPlain_of_not_ascii (by omega)), ?_⟩
      intro rest
      exact appendBytes_encodeChar escape_copies (by omega) hc
  · intro c rest cs hc h
    rw [Bool.not_eq_false] at hc
    obtain ⟨third, heq⟩ := @appendBytes_separator _ _ (encode rest) escape c escape_copies hc
    rw [serializeString, encode_cons, heq, ite_self] at h
    obtain ⟨cs', -, hrest⟩ := h.of_cons token_prefixFree .line
    generalize hword : (0x80 :: third :: appendBytes escape (encode rest) : Bytes) = word at hrest
    cases hrest with
    | nil => cases hword
    | cons t l d cs ht _ =>
      cases t with
      | nil => exact absurd rfl (token_prefixFree.ne_nil _ _ ht)
      | cons first t =>
        have hfirst := token_first ht
        rw [← (List.cons.inj hword).1] at hfirst
        revert hfirst
        decide

end Html

end TelegramClient.Export
