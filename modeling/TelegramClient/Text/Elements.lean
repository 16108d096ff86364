import TelegramClient.Lib.Segments
import TelegramClient.Text.Characters

/-! Emoji, surrogate pairs and other characters, which texts are read by. -/

namespace TelegramClient.Text

/-- `Ui::Emoji::Find`: the length of the emoji a text starts with. -/
structure EmojiFind where
  find : List QChar → Option Nat
  length_pos : ∀ text n, find text = some n → 0 < n
  length_le : ∀ text n, find text = some n → n ≤ text.length
  whole : ∀ text n ch, find text = some n → text[n - 1]? = some ch → isHighSurrogate ch = false

/-- The number of characters, where the two of a surrogate pair are one. -/
def codePoints : List QChar → Nat
  | [] => 0
  | [_] => 1
  | ch :: next :: rest =>
    if isHighSurrogate ch && isLowSurrogate next then codePoints rest + 1
    else codePoints (next :: rest) + 1

def isSurrogatePair : List QChar → Bool
  | ch :: next :: _ => isHighSurrogate ch && isLowSurrogate next
  | _ => false

/-- The length of the emoji, the surrogate pair or the character a text starts with. -/
def EmojiFind.elementLength (e : EmojiFind) (text : List QChar) : Nat :=
  match e.find text with
  | some elen => elen
  | none => if isSurrogatePair text then 2 else 1

/-- How many characters this is. -/
def EmojiFind.elementPoints (e : EmojiFind) (text : List QChar) : Nat :=
  match e.find text with
  | some elen => codePoints (text.take elen)
  | none => 1

variable {e : EmojiFind} {text l m : List QChar} {p q n : Nat}

/-! ### Surrogate pairs -/

theorem not_low_of_high {ch : QChar} (h : isHighSurrogate ch) : isLowSurrogate ch = false := by
  simp only [isHighSurrogate, isLowSurrogate, beq_iff_eq] at h ⊢
  rw [h]
  decide

theorem length_of_isSurrogatePair (h : isSurrogatePair text) : 2 ≤ text.length := by
  rcases text with _ | ⟨ch, _ | ⟨next, rest⟩⟩
  · cases h
  · cases h
  · simp

theorem codePoints_le_length (l : List QChar) : codePoints l ≤ l.length := by
  induction l using codePoints.induct with
  | case1 => exact le_rfl
  | case2 => exact le_rfl
  | case3 ch next rest hpair ih =>
    rw [codePoints, if_pos hpair, List.length_cons, List.length_cons]
    omega
  | case4 ch next rest hpair ih =>
    rw [codePoints, if_neg hpair, List.length_cons]
    omega

theorem codePoints_pos (h : l ≠ []) : 0 < codePoints l := by
  induction l using codePoints.induct with
  | case1 => exact absurd rfl h
  | case2 => exact Nat.one_pos
  | case3 ch next rest hpair ih =>
    rw [codePoints, if_pos hpair]
    omega
  | case4 ch next rest hpair ih =>
    rw [codePoints, if_neg hpair]
    omega

/-- Characters are counted on both sides of a place that is not in a surrogate pair. -/
theorem codePoints_append (h : ∀ ch next, l.getLast? = some ch → m.head? = some next →
    ¬ (isHighSurrogate ch ∧ isLowSurrogate next)) :
    codePoints (l ++ m) = codePoints l + codePoints m := by
  induction l using codePoints.induct with
  | case1 => rw [List.nil_append, codePoints, Nat.zero_add]
  | case2 ch =>
    cases m with
    | nil => rfl
    | cons next rest =>
      have hnot : ¬ (isHighSurrogate ch && isLowSurrogate next) = true := by
        rw [Bool.and_eq_true]
        exact h ch next rfl rfl
      show codePoints (ch :: next :: rest) = 1 + codePoints (next :: rest)
      conv_lhs => rw [codePoints]
      rw [if_neg hnot, Nat.add_comm]
  | case3 ch next rest hpair ih =>
    rw [List.cons_append, List.cons_append, codePoints, codePoints, if_pos hpair, if_pos hpair, ih]
    · omega
    · intro ch' next' hlast hhead
      apply h ch' next' _ hhead
      cases rest with
      | nil => cases hlast
      | cons a rest => rw [List.getLast?_cons_cons, List.getLast?_cons_cons, hlast]
  | case4 ch next rest hpair ih =>
    rw [List.cons_append, List.cons_append, codePoints, codePoints, if_neg hpair, if_neg hpair,
      ← List.cons_append, ih]
    · omega
    · intro ch' next' hlast hhead
      apply h ch' next' _ hhead
      rw [List.getLast?_cons_cons, hlast]

/-! ### Elements -/

theorem EmojiFind.elementLength_pos (e : EmojiFind) (text : List QChar) :
    0 < e.elementLength text := by
  rw [elementLength]
  split
  next elen hfind => exact e.length_pos text elen hfind
  next =>
    split
    · exact Nat.two_pos
    · exact Nat.one_pos

theorem EmojiFind.elementLength_le (e : EmojiFind) (h : text ≠ []) :
    e.elementLength text ≤ text.length := by
  have hpos := List.length_pos_iff.mpr h
  rw [elementLength]
  split
  next elen hfind => exact e.length_le text elen hfind
  next =>
    split
    next hpair => exact length_of_isSurrogatePair hpair
    next => exact hpos

/-- Texts read by their elements. -/
def EmojiFind.reading (e : EmojiFind) : Segments.Reading QChar where
  size := e.elementLength
  size_pos := fun text _ => e.elementLength_pos text
  size_le := fun _ h => e.elementLength_le h

/-- The place is not between the two parts of a surrogate pair. -/
def NotInPair (text : List QChar) (p : Nat) : Prop :=
  ∀ ch next, 0 < p → text[p - 1]? = some ch → text[p]? = some next →
    ¬ (isHighSurrogate ch ∧ isLowSurrogate next)

/-- The place is not in an emoji that is found when the text is read. -/
def EmojiFind.NotInEmoji (e : EmojiFind) (text : List QChar) (p : Nat) : Prop :=
  ∀ q n, Segments.Start e.reading text q → e.find (text.drop q) = some n → ¬ (q < p ∧ p < q + n)

theorem elementLength_of_find (h : e.find text = some n) : e.elementLength text = n := by
  rw [EmojiFind.elementLength, h]

theorem notInEmoji_of_start (h : Segments.Start e.reading text p) : e.NotInEmoji text p := by
  intro q n hq hfind hinside
  have hle := hq.not_inside h hinside.1
  rw [show e.reading.size (text.drop q) = n from elementLength_of_find hfind] at hle
  omega

theorem elementLength_of_none (h : e.find text = none) :
    e.elementLength text = if isSurrogatePair text then 2 else 1 := by
  rw [EmojiFind.elementLength, h]

/-- No surrogate pair starts with the last character of an element. -/
theorem notInPair_of_element (h : text ≠ []) : NotInPair text (e.elementLength text) := by
  intro ch next _ hch hnext hpair
  cases hfind : e.find text with
  | some elen =>
    rw [elementLength_of_find hfind] at hch
    have hnot := e.whole text elen ch hfind hch
    rw [hnot] at hpair
    exact Bool.false_ne_true hpair.1
  | none =>
    rw [elementLength_of_none hfind] at hch hnext
    rcases text with _ | ⟨ch', _ | ⟨next', rest⟩⟩
    · exact h rfl
    · simp [isSurrogatePair] at hnext
    · by_cases hpair' : isSurrogatePair (ch' :: next' :: rest)
      · rw [if_pos hpair'] at hch
        have hlow := (Bool.and_eq_true _ _ ▸ hpair').2
        simp only [show 2 - 1 = 1 from rfl, List.getElem?_cons_succ, List.getElem?_cons_zero,
          Option.some.injEq] at hch
        subst hch
        rw [not_low_of_high hpair.1] at hlow
        cases hlow
      · rw [if_neg hpair'] at hch hnext
        simp only [Nat.sub_self, List.getElem?_cons_succ, List.getElem?_cons_zero,
          Option.some.injEq] at hch hnext
        subst hch hnext
        exact hpair' (by rw [isSurrogatePair, hpair.1, hpair.2]; rfl)

theorem NotInPair.of_drop (h : NotInPair (text.drop p) q) (hpos : 0 < q) :
    NotInPair text (p + q) := by
  intro ch next _ hch hnext
  apply h ch next hpos
  · rw [List.getElem?_drop, ← hch]
    congr 1
    omega
  · rw [List.getElem?_drop, hnext]

theorem notInPair_of_start (h : Segments.Start e.reading text p) : NotInPair text p := by
  cases h with
  | zero => exact fun _ _ hpos => absurd hpos (Nat.lt_irrefl 0)
  | next p h hlt =>
    exact (notInPair_of_element (Segments.drop_ne_nil hlt)).of_drop (e.elementLength_pos _)

theorem NotInPair.take (h : NotInPair text p) (q : Nat) : NotInPair (text.take q) p := by
  intro ch next hpos hch hnext
  apply h ch next hpos
  · rw [List.getElem?_take] at hch
    split at hch
    · exact hch
    · cases hch
  · rw [List.getElem?_take] at hnext
    split at hnext
    · exact hnext
    · cases hnext

theorem codePoints_take_drop (h : NotInPair text p) :
    codePoints (text.take p) + codePoints (text.drop p) = codePoints text := by
  rw [← codePoints_append, List.take_append_drop]
  intro ch next hlast hhead
  cases p with
  | zero =>
    rw [List.take_zero] at hlast
    cases hlast
  | succ p =>
    rw [List.head?_drop] at hhead
    have hlen := (List.getElem?_eq_some_iff.mp hhead).1
    apply h ch next (Nat.succ_pos p) _ hhead
    rw [← hlast, List.getLast?_take]
    rw [if_neg (by omega), Nat.add_sub_cancel, List.getElem?_eq_getElem (by omega)]
    rfl

theorem elementPoints_eq (h : text ≠ []) :
    e.elementPoints text = codePoints (text.take (e.elementLength text)) := by
  rw [EmojiFind.elementPoints, EmojiFind.elementLength]
  split
  · rfl
  next =>
    rcases text with _ | ⟨ch, _ | ⟨next, rest⟩⟩
    · exact absurd rfl h
    · simp [isSurrogatePair, codePoints]
    · by_cases hpair : isHighSurrogate ch && isLowSurrogate next
      · simp [isSurrogatePair, hpair, codePoints]
      · simp [isSurrogatePair, hpair, codePoints]

theorem codePoints_next (h : Segments.Start e.reading text p) (hlt : p < text.length) :
    codePoints (text.take (p + e.elementLength (text.drop p))) =
      codePoints (text.take p) + e.elementPoints (text.drop p) := by
  have hsplit := codePoints_take_drop
    ((notInPair_of_start h).take (p + e.elementLength (text.drop p)))
  rw [← hsplit, List.take_take, Nat.min_eq_left (by omega), elementPoints_eq
    (Segments.drop_ne_nil hlt), List.drop_take, Nat.add_sub_cancel_left]

theorem codePoints_take_le (h : NotInPair text p) (hle : p ≤ q) :
    codePoints (text.take p) ≤ codePoints (text.take q) := by
  have hsplit := codePoints_take_drop (h.take q)
  rw [List.take_take, Nat.min_eq_left hle] at hsplit
  omega

end TelegramClient.Text
