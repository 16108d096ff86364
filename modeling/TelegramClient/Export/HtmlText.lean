import TelegramClient.Export.Html
import TelegramClient.Export.TextParts

/-! `FormatText` of `export/output/export_output_html.cpp`. -/

namespace TelegramClient.Export.Html

open Utf8

def joinList (separator : Bytes) : List Bytes → Bytes
  | [] => []
  | [value] => value
  | value :: rest => value ++ separator ++ joinList separator rest

def formatPart (internalLinksDomain : Bytes) (part : TextPart) : Bytes :=
  let text := serializeString part.text
  let quoted := serializeString (0x22 :: text.drop 1 ++ [0x22])
  match part.type with
  | .text => text
  | .unknown => text
  | .mention =>
    ascii "<a href=\"" ++ internalLinksDomain ++ text.drop 1 ++ ascii "\">" ++ text ++ ascii "</a>"
  | .hashtag =>
    ascii "<a href=\"\" onclick=\"return ShowHashtag(" ++ quoted ++ ascii ")\">" ++ text ++
      ascii "</a>"
  | .botCommand =>
    ascii "<a href=\"\" onclick=\"return ShowBotCommand(" ++ quoted ++ ascii ")\">" ++ text ++
      ascii "</a>"
  | .url => ascii "<a href=\"" ++ text ++ ascii "\">" ++ text ++ ascii "</a>"
  | .email => ascii "<a href=\"mailto:" ++ text ++ ascii "\">" ++ text ++ ascii "</a>"
  | .bold => ascii "<strong>" ++ text ++ ascii "</strong>"
  | .italic => ascii "<em>" ++ text ++ ascii "</em>"
  | .code => ascii "<code>" ++ text ++ ascii "</code>"
  | .pre => ascii "<pre>" ++ text ++ ascii "</pre>"
  | .textUrl =>
    ascii "<a href=\"" ++ serializeString part.additional ++ ascii "\">" ++ text ++ ascii "</a>"
  | .mentionName =>
    ascii "<a href=\"\" onclick=\"return ShowMentionName()\">" ++ text ++ ascii "</a>"
  | .phone => ascii "<a href=\"tel:" ++ text ++ ascii "\">" ++ text ++ ascii "</a>"
  | .cashtag =>
    ascii "<a href=\"\" onclick=\"return ShowCashtag(" ++ quoted ++ ascii ")\">" ++ text ++
      ascii "</a>"

def formatText (data : List TextPart) (internalLinksDomain : Bytes) : Bytes :=
  joinList [] (data.map (formatPart internalLinksDomain))

/-- There are no elements in it other than line breaks. -/
def OnlyBreaks (content : Bytes) : Prop :=
  ∃ pieces : List Bytes, content = pieces.flatten ∧
    ∀ piece ∈ pieces, piece = ascii "<br>" ∨ 0x3C ∉ piece ∧ 0x3E ∉ piece

/-- The markup of a part depends on its type only, and its texts close neither the attribute nor
the element they are put into. -/
def Encloses (internalLinksDomain : Bytes) (type : TextType) : Prop :=
  ∃ opening middle closing : Bytes, ∀ text additional : Bytes, ∃ inside content : Bytes,
    formatPart internalLinksDomain ⟨type, text, additional⟩ =
      opening ++ inside ++ middle ++ content ++ closing ∧
    0x22 ∉ inside ∧ OnlyBreaks content

variable {value : Bytes} {ch : UInt8} {rest : Bytes}

theorem control_notMem {b : UInt8} (hch : ch < 32) (hb : b ∈ [(0x22 : UInt8), 0x3C, 0x3E]) :
    b ∉ ascii "&#x" ++ [(0x30 : UInt8) + (ch >>> 4), hexDigit (ch &&& 0x0F), 0x3B] := by
  have hopening : ascii "&#x" = [0x26, 0x23, 0x78] := by decide
  have hnot : digitValue b = none ∧ b ≠ 0x26 ∧ b ≠ 0x23 ∧ b ≠ 0x78 ∧ b ≠ 0x3B := by
    simp only [List.mem_cons, List.not_mem_nil, or_false] at hb
    rcases hb with rfl | rfl | rfl
    · decide
    · decide
    · decide
  obtain ⟨n, m, hhigh, hlow, -⟩ := control_digits hch
  obtain ⟨hnone, hb⟩ := hnot
  simp only [hopening, List.cons_append, List.nil_append, List.mem_cons, List.not_mem_nil, or_false,
    not_or]
  refine ⟨hb.1, hb.2.1, hb.2.2.1, ?_, ?_, hb.2.2.2⟩
  · intro heq
    rw [heq, hhigh] at hnone
    cases hnone
  · intro heq
    rw [heq, hlow] at hnone
    cases hnone

theorem escape_piece (ch : UInt8) (rest : Bytes) :
    0x22 ∉ escape ch rest ∧
      (escape ch rest = ascii "<br>" ∨ 0x3C ∉ escape ch rest ∧ 0x3E ∉ escape ch rest) := by
  rw [escape]
  split
  · exact ⟨by decide, .inl rfl⟩
  · split
    · exact ⟨by decide, .inr (by decide)⟩
    next hquot =>
      split
      · exact ⟨by decide, .inr (by decide)⟩
      · split
        · exact ⟨by decide, .inr (by decide)⟩
        · split
          · exact ⟨by decide, .inr (by decide)⟩
          next hlt =>
            split
            · exact ⟨by decide, .inr (by decide)⟩
            next hgt =>
              split
              next hcontrol =>
                exact ⟨control_notMem hcontrol (by simp), .inr ⟨control_notMem hcontrol (by simp),
                  control_notMem hcontrol (by simp)⟩⟩
              next =>
                have hcases : appendSeparator (ascii "<br>") (ascii "<br>") ch rest = ascii "<br>" ∨
                    appendSeparator (ascii "<br>") (ascii "<br>") ch rest = [ch] := by
                  unfold appendSeparator
                  split
                  · split_ifs
                    · exact .inl rfl
                    · exact .inl rfl
                    · exact .inr rfl
                    · exact .inr rfl
                  · exact .inr rfl
                cases hcases with
                | inl hbreak =>
                  rw [hbreak]
                  exact ⟨by decide, .inl rfl⟩
                | inr hsame =>
                  rw [hsame]
                  simp only [List.mem_singleton]
                  exact ⟨Ne.symm hquot, .inr ⟨Ne.symm hlt, Ne.symm hgt⟩⟩

theorem quote_notMem (value : Bytes) : 0x22 ∉ serializeString value := by
  rw [serializeString]
  induction value with
  | nil => exact List.not_mem_nil
  | cons ch rest ih =>
    rw [appendBytes_cons, List.mem_append]
    intro h
    cases h with
    | inl hfirst => exact (escape_piece ch rest).1 hfirst
    | inr hrest => exact ih hrest

theorem serializeString_onlyBreaks (value : Bytes) : OnlyBreaks (serializeString value) := by
  rw [serializeString]
  induction value with
  | nil =>
    refine ⟨[], rfl, ?_⟩
    intro piece hpiece
    cases hpiece
  | cons ch rest ih =>
    obtain ⟨pieces, heq, hpieces⟩ := ih
    refine ⟨escape ch rest :: pieces, ?_, ?_⟩
    · rw [appendBytes_cons, heq, List.flatten_cons]
    · intro piece hpiece
      rw [List.mem_cons] at hpiece
      cases hpiece with
      | inl hfirst =>
        rw [hfirst]
        exact (escape_piece ch rest).2
      | inr hrest => exact hpieces piece hrest

/-- Texts in attributes have no quotation marks, and those in elements no other elements. -/
theorem encloses (internalLinksDomain : Bytes) (type : TextType) :
    Encloses internalLinksDomain type := by
  have hplain : ∀ opening closing : Bytes, (∀ text additional : Bytes,
      formatPart internalLinksDomain ⟨type, text, additional⟩ =
        opening ++ serializeString text ++ closing) → Encloses internalLinksDomain type := by
    intro opening closing h
    refine ⟨opening, [], closing, ?_⟩
    intro text additional
    refine ⟨[], serializeString text, ?_, List.not_mem_nil, serializeString_onlyBreaks text⟩
    rw [h, List.append_nil, List.append_nil]
  have hlink : ∀ (opening middle closing : Bytes) (inside : Bytes → Bytes → Bytes),
      (∀ text additional, 0x22 ∉ inside text additional) → (∀ text additional : Bytes,
      formatPart internalLinksDomain ⟨type, text, additional⟩ =
        opening ++ inside text additional ++ middle ++ serializeString text ++ closing) →
      Encloses internalLinksDomain type := by
    intro opening middle closing inside hinside h
    refine ⟨opening, middle, closing, ?_⟩
    intro text additional
    exact ⟨inside text additional, serializeString text, h text additional,
      hinside text additional, serializeString_onlyBreaks text⟩
  cases type with
  | text => exact hplain [] [] fun text additional => by rw [List.nil_append, List.append_nil]; rfl
  | unknown =>
    exact hplain [] [] fun text additional => by rw [List.nil_append, List.append_nil]; rfl
  | mention =>
    exact hlink (ascii "<a href=\"" ++ internalLinksDomain) _ _
      (fun text _ => (serializeString text).drop 1)
      (fun text _ h => quote_notMem text (List.mem_of_mem_drop h)) fun text additional => rfl
  | hashtag =>
    exact hlink _ _ _ _ (fun text _ => quote_notMem _) fun text additional => rfl
  | botCommand =>
    exact hlink _ _ _ _ (fun text _ => quote_notMem _) fun text additional => rfl
  | url => exact hlink _ _ _ _ (fun text _ => quote_notMem text) fun text additional => rfl
  | email => exact hlink _ _ _ _ (fun text _ => quote_notMem text) fun text additional => rfl
  | bold => exact hplain _ _ fun text additional => rfl
  | italic => exact hplain _ _ fun text additional => rfl
  | code => exact hplain _ _ fun text additional => rfl
  | pre => exact hplain _ _ fun text additional => rfl
  | textUrl =>
    exact hlink _ _ _ _ (fun _ additional => quote_notMem additional) fun text additional => rfl
  | mentionName => exact hplain _ _ fun text additional => rfl
  | phone => exact hlink _ _ _ _ (fun text _ => quote_notMem text) fun text additional => rfl
  | cashtag =>
    exact hlink _ _ _ _ (fun text _ => quote_notMem _) fun text additional => rfl

theorem joinList_nil (list : List Bytes) : joinList [] list = list.flatten := by
  induction list with
  | nil => rfl
  | cons value rest ih =>
    cases rest with
    | nil => simp [joinList]
    | cons value' rest =>
      show value ++ [] ++ joinList [] (value' :: rest) = _
      rw [ih, List.append_nil]
      rfl

/-- Strings are written so that they can be read back, and parts so that they close nothing, if and
only if there is no separator in the string. -/
theorem escaping_iff (value : List Char) (data : List TextPart) (internalLinksDomain : Bytes) :
    (IsHtml (serializeString (encode value)) (value.map newline) ∧
        formatText data internalLinksDomain = data.flatMap (formatPart internalLinksDomain) ∧
        ∀ part ∈ data, Encloses internalLinksDomain part.type) ↔
      ∀ c ∈ value, isSeparator c = false := by
  constructor
  · intro h
    exact (serializeString_iff value).mp h.1
  · intro h
    refine ⟨(serializeString_iff value).mpr h, ?_, fun part _ => encloses _ part.type⟩
    rw [formatText, joinList_nil, List.flatMap_def]

theorem serializeString_separator :
    ¬ ∀ value : List Char, IsHtml (serializeString (encode value)) (value.map newline) := by
  intro h
  have hclean := (serializeString_iff ['\u2028']).mp (h ['\u2028']) _ (List.mem_singleton_self _)
  revert hclean
  decide

end TelegramClient.Export.Html
