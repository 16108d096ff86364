import TelegramClient.Support.TemplateFiles

/-! Lines of template files: what is written as a line is read as that line. -/

namespace TelegramClient.Support

open Text

variable {qt : Qt} {text : QString} {cs : List Char}

/-- What Unicode says about spaces. -/
structure Qt.IsUnicode (qt : Qt) : Prop where
  ascii : ∀ ch : QChar, ch < 128 → qt.platform.isSpace ch = (ch == 0x20 || 9 ≤ ch && ch ≤ 13)
  surrogate : ∀ ch : QChar, Utf16.isHigh ch ∨ Utf16.isLow ch → qt.platform.isSpace ch = false

/-- A text that may be read from a line: without an end of line, a mark in front, and spaces at
the ends. -/
structure IsLine (qt : Qt) (line : QString) : Prop where
  encoded : ∃ cs : List Char, line = Utf16.encode cs ∧ Char.ofNat 10 ∉ cs
  unmarked : line.head? ≠ some 0xFEFF
  trimmed : qt.trimmed line = line

/-! ### Trimmed texts -/

theorem rdropWhile_dropWhile_idem (p : QChar → Bool) (text : QString) :
    ((text.dropWhile p).rdropWhile p).dropWhile p = (text.dropWhile p).rdropWhile p := by
  cases hrest : (text.dropWhile p).rdropWhile p with
  | nil => rfl
  | cons ch rest =>
    have hpre : ch :: rest <+: text.dropWhile p := hrest ▸ List.rdropWhile_prefix p _
    obtain ⟨tail, htail⟩ := hpre
    have hfirst : p ch = false := by
      have hne : text.dropWhile p ≠ [] := by simp [← htail]
      have hnot := List.head_dropWhile_not p hne
      simp only [← htail] at hnot
      simpa using hnot
    simp [hfirst]

theorem Qt.trimmed_trimmed (text : QString) : qt.trimmed (qt.trimmed text) = qt.trimmed text := by
  rw [Qt.trimmed, Qt.trimmed, rdropWhile_dropWhile_idem, List.rdropWhile_idempotent]

/-- The units of a character. -/
theorem encodeChar_cases (c : Char) :
    (∃ u, Utf16.encodeChar c = [u]) ∨
      ∃ u v, Utf16.encodeChar c = [u, v] ∧ Utf16.isHigh u ∧ Utf16.isLow v := by
  have hmax := Utf16.toNat_lt c
  rw [Utf16.encodeChar]
  split
  · exact .inl ⟨_, rfl⟩
  · refine .inr ⟨_, _, rfl, ?_, ?_⟩
    · rw [Utf16.isHigh, Utf16.toNat_ofNat_of_lt (by omega)]
      simp only [Bool.and_eq_true, decide_eq_true_eq]
      omega
    · rw [Utf16.isLow, Utf16.toNat_ofNat_of_lt (by omega)]
      simp only [Bool.and_eq_true, decide_eq_true_eq]
      omega

/-- Spaces are characters, so what is left of characters are characters. -/
theorem exists_dropWhile_encode (h : qt.IsUnicode) (cs : List Char) :
    ∃ cs', cs' <:+ cs ∧ (Utf16.encode cs).dropWhile qt.platform.isSpace = Utf16.encode cs' := by
  induction cs with
  | nil => exact ⟨[], List.suffix_refl _, rfl⟩
  | cons c cs ih =>
    obtain ⟨cs', hsuffix, hdrop⟩ := ih
    rcases encodeChar_cases c with ⟨u, hu⟩ | ⟨u, v, huv, hhigh, -⟩
    · cases hspace : qt.platform.isSpace u with
      | true =>
        refine ⟨cs', hsuffix.trans (List.suffix_cons c cs), ?_⟩
        simp [hu, hspace, hdrop]
      | false =>
        refine ⟨c :: cs, List.suffix_refl _, ?_⟩
        simp [hu, hspace]
    · refine ⟨c :: cs, List.suffix_refl _, ?_⟩
      simp [huv, h.surrogate u (.inl hhigh)]

theorem exists_rdropWhile_encode (h : qt.IsUnicode) (cs : List Char) :
    ∃ cs', cs' <+: cs ∧ (Utf16.encode cs).rdropWhile qt.platform.isSpace = Utf16.encode cs' := by
  induction cs using List.reverseRecOn with
  | nil => exact ⟨[], List.prefix_refl _, rfl⟩
  | append_singleton cs c ih =>
    obtain ⟨cs', hpre, hdrop⟩ := ih
    have hencode : Utf16.encode (cs ++ [c]) = Utf16.encode cs ++ Utf16.encodeChar c := by
      simp [Utf16.encode_append]
    rw [hencode]
    rcases encodeChar_cases c with ⟨u, hu⟩ | ⟨u, v, huv, -, hlow⟩
    · rw [hu]
      cases hspace : qt.platform.isSpace u with
      | true =>
        refine ⟨cs', hpre.trans (List.prefix_append cs [c]), ?_⟩
        rw [List.rdropWhile_concat_pos _ _ _ hspace, hdrop]
      | false =>
        refine ⟨cs ++ [c], List.prefix_refl _, ?_⟩
        rw [List.rdropWhile_concat_neg _ _ _ (by simp [hspace]), hencode, hu]
    · refine ⟨cs ++ [c], List.prefix_refl _, ?_⟩
      have hsplit : Utf16.encode cs ++ [u, v] = (Utf16.encode cs ++ [u]) ++ [v] := by simp
      rw [hencode, huv, hsplit,
        List.rdropWhile_concat_neg _ _ _ (by simp [h.surrogate v (.inr hlow)])]

theorem exists_trimmed_encode (h : qt.IsUnicode) (cs : List Char) :
    ∃ cs', (∀ c ∈ cs', c ∈ cs) ∧ qt.trimmed (Utf16.encode cs) = Utf16.encode cs' := by
  obtain ⟨cs₁, hsuffix, hdrop⟩ := exists_dropWhile_encode h cs
  obtain ⟨cs₂, hpre, hrdrop⟩ := exists_rdropWhile_encode h cs₁
  refine ⟨cs₂, fun c hc => hsuffix.subset (hpre.subset hc), ?_⟩
  rw [Qt.trimmed, hdrop, hrdrop]

/-! ### Lines of bytes -/

/-- The lines of a file as they are written. -/
def bytesOf (lines : List QString) : List UInt8 :=
  lines.flatMap fun line => Utf16.toUtf8 line ++ [10]

theorem not_mem_of_mem_splitOn {bytes utf : List UInt8} (h : utf ∈ bytes.splitOn 10) :
    10 ∉ utf := by
  induction bytes generalizing utf with
  | nil => simp [List.mem_singleton.mp h]
  | cons b bytes ih =>
    rw [List.splitOn_cons_eq_if_modifyHead] at h
    split at h
    · rcases List.mem_cons.mp h with rfl | hrest
      · exact List.not_mem_nil
      · exact ih hrest
    · next hb =>
      obtain ⟨first, rest, hsplit⟩ := List.exists_cons_of_ne_nil (List.splitOn_ne_nil 10 bytes)
      rw [hsplit] at h ih
      rcases List.mem_cons.mp h with rfl | hrest
      · have hfirst := ih List.mem_cons_self
        rw [List.mem_cons, not_or]
        exact ⟨fun heq => hb (by rw [heq, beq_self_eq_true]), hfirst⟩
      · exact ih (List.mem_cons_of_mem first hrest)

theorem isLine_of_mem (h : qt.IsUnicode) {blob : List UInt8} {line : QString}
    (hline : line ∈ lines qt blob) (hmark : line.head? ≠ some 0xFEFF) : IsLine qt line := by
  rw [lines, List.mem_map] at hline
  obtain ⟨utf, hutf, rfl⟩ := hline
  obtain ⟨cs', hsub, htrimmed⟩ := exists_trimmed_encode h (Utf8.decode utf)
  refine ⟨⟨cs', htrimmed, fun hmem => ?_⟩, hmark, Qt.trimmed_trimmed _⟩
  exact not_mem_of_mem_splitOn hutf (Utf8.mem_of_mem_decode (by decide) (hsub _ hmem))

/-- A line is read as it was written. -/
theorem IsLine.read {line : QString} (h : IsLine qt line) :
    10 ∉ Utf16.toUtf8 line ∧ qt.trimmed (fromUtf8 (Utf16.toUtf8 line)) = line := by
  obtain ⟨⟨cs, rfl, hend⟩, hmark, htrimmed⟩ := h
  have hhead : cs.head? ≠ some (Char.ofNat 0xFEFF) := by
    intro hfirst
    obtain ⟨rest, rfl⟩ := List.head?_eq_some_iff.mp hfirst
    exact hmark rfl
  rw [Utf16.toUtf8_encode, fromUtf8, Utf8.decode_encode hhead, htrimmed]
  refine ⟨fun hmem => ?_, rfl⟩
  obtain ⟨c, hc, hten⟩ := Utf8.exists_of_mem_encode (by decide) hmem
  have hchar : c = Char.ofNat 10 := by
    rw [← Char.ofNat_toNat c, hten]
    rfl
  exact hend (hchar ▸ hc)

theorem lines_bytesOf {written : List QString} (h : ∀ line ∈ written, IsLine qt line) :
    lines qt (bytesOf written) = written ++ [[]] := by
  induction written with
  | nil => rfl
  | cons line written ih =>
    obtain ⟨hend, hread⟩ := (h line List.mem_cons_self).read
    have hrest := ih fun l hl => h l (List.mem_cons_of_mem line hl)
    have hsplit : bytesOf (line :: written) = Utf16.toUtf8 line ++ 10 :: bytesOf written := by
      simp [bytesOf]
    rw [lines] at hrest
    rw [lines, hsplit, List.splitOn_append_cons_self_of_not_mem hend, List.map_cons, hread, hrest]
    rfl

end TelegramClient.Support
