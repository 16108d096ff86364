import TelegramClient.Text.Entities
import TelegramClient.Lib.Rewriting

/-! `ApplyServerCleaning` of `ui/text/text_entity.cpp`. The text is moved in parts, and the entities
with it. -/

namespace TelegramClient.Text

open Rewriting

/-- `memmove` within the text. -/
def moveChars (text : List QChar) (to_ from_ count : Nat) : List QChar :=
  text.take to_ ++ (text.drop from_).take count ++ text.drop (to_ + count)

/-- An entity that starts before the end of the part. -/
def movedEntity (to_ from_ count : Nat) (entity : EntityInText) : EntityInText :=
  if entity.offset + entity.length ≤ from_ then entity
  else
    let entity :=
      if entity.offset ≥ from_ then entity.extendToLeft (from_ - to_) else entity
    if entity.offset + entity.length ≤ from_ + count then entity.shrinkFromRight (from_ - to_)
    else entity

def moveEntities (to_ from_ count : Nat) : List EntityInText → List EntityInText
  | [] => []
  | entity :: rest =>
    if entity.offset ≥ from_ + count then entity :: rest
    else movedEntity to_ from_ count entity :: moveEntities to_ from_ count rest

def moveStringPart (result : TextWithEntities) (to_ from_ count : Nat) : TextWithEntities :=
  if count = 0 then result
  else if to_ ≠ from_ then
    { text := moveChars result.text to_ from_ count
      entities := moveEntities to_ from_ count result.entities }
  else result

def writeChars (text : List QChar) (to_ : Nat) (chars : List QChar) : List QChar :=
  text.take to_ ++ chars ++ text.drop (to_ + chars.length)

/-- The loop over the characters from the last one on, with how many are left. -/
def replaceTabs : Nat → Nat → Nat → TextWithEntities → TextWithEntities
  | 0, _, _, result => result
  | i + 1, movedTill, to_, result =>
    if result.text[i]? = some 0x09 then
      let toMove := movedTill - (i + 1)
      let to_ := to_ - toMove
      let result := moveStringPart result to_ (i + 1) toMove
      let to_ := to_ - 2
      replaceTabs i i to_ { result with text := writeChars result.text to_ [0x20, 0x20] }
    else replaceTabs i movedTill to_ result

/-- The loop over the characters from `ch` on, with how many are left. -/
def removeReturns : Nat → Nat → Nat → Nat → TextWithEntities → Nat × Nat × TextWithEntities
  | 0, _, to_, from_, result => (to_, from_, result)
  | n + 1, ch, to_, from_, result =>
    match result.text[ch]? with
    | none => (to_, from_, result)
    | some c =>
      if c = 0x0D then
        let count := ch - from_
        removeReturns n (ch + 1) (to_ + count) (from_ + count + 1)
          (moveStringPart result to_ from_ count)
      else if chReplacedBySpace c then
        removeReturns n (ch + 1) to_ from_ { result with text := result.text.set ch 0x20 }
      else removeReturns n (ch + 1) to_ from_ result

/-- Tabs are replaced by two spaces. The new characters of a text that gets longer are not set by
Qt. -/
def cleanTabs (result : TextWithEntities) : TextWithEntities :=
  let len := result.text.length
  let tabs := result.text.count 0x09
  if tabs = 0 then result
  else replaceTabs len len (len + tabs)
    { result with text := result.text ++ List.replicate tabs 0 }

/-- Bad characters are replaced by spaces, and returns removed. -/
def cleanReturns (result : TextWithEntities) : TextWithEntities :=
  let len := result.text.length
  let (to_, from_, result) := removeReturns len 0 0 0 result
  let count := len - from_
  let result := moveStringPart result to_ from_ count
  let to_ := to_ + count
  if to_ < len then { result with text := result.text.take to_ } else result

def applyServerCleaning (result : TextWithEntities) : TextWithEntities :=
  cleanReturns (cleanTabs result)

/-- What a character is replaced by. -/
def cleaned (c : QChar) : List QChar :=
  if c = 0x09 then [0x20, 0x20]
  else if c = 0x0D then []
  else if chReplacedBySpace c then [0x20]
  else [c]

/-! ### The text -/

variable {A P G S R D : List QChar} {c : QChar}

theorem moveChars_right : moveChars (A ++ P ++ G ++ R) (A.length + G.length) A.length P.length =
    A ++ (P ++ G).take G.length ++ P ++ R := by
  have htake : (A ++ P ++ G ++ R).take (A.length + G.length) = A ++ (P ++ G).take G.length := by
    rw [List.append_assoc, List.append_assoc, List.take_length_add_append, ← List.append_assoc,
      List.take_append_of_le_length (by simp)]
  have hpart : ((A ++ P ++ G ++ R).drop A.length).take P.length = P := by
    simp
  have hdrop : (A ++ P ++ G ++ R).drop (A.length + G.length + P.length) = R := by
    apply List.drop_left'
    simp only [List.length_append]
    omega
  rw [moveChars, htake, hpart, hdrop]

theorem moveChars_left : moveChars (D ++ G ++ P ++ R) D.length (D.length + G.length) P.length =
    D ++ P ++ (G ++ P).drop P.length ++ R := by
  have htake : (D ++ G ++ P ++ R).take D.length = D := by
    simp
  have hpart : ((D ++ G ++ P ++ R).drop (D.length + G.length)).take P.length = P := by
    rw [List.append_assoc, List.drop_left' (by simp), List.take_left' rfl]
  have hdrop : (D ++ G ++ P ++ R).drop (D.length + P.length) =
      (G ++ P).drop P.length ++ R := by
    rw [List.append_assoc, List.append_assoc, List.drop_length_add_append, ← List.append_assoc,
      List.drop_append_of_le_length (by simp)]
  rw [moveChars, htake, hpart, hdrop, ← List.append_assoc]

/-! ### The entities -/

variable {T : List QChar} {f : QChar → List QChar} {b i p s e to_ from_ count : Nat}
  {entity : EntityInText} {raws entities : List EntityInText}

theorem movedEntity_offset (to_ from_ count : Nat) (entity : EntityInText) :
    (movedEntity to_ from_ count entity).offset =
      if entity.offset + entity.length ≤ from_ then entity.offset
      else if entity.offset ≥ from_ then entity.offset - (from_ - to_) else entity.offset := by
  rw [movedEntity]
  dsimp only
  split_ifs <;> rfl

theorem movedEntity_end (to_ from_ count : Nat) (entity : EntityInText) :
    (movedEntity to_ from_ count entity).offset + (movedEntity to_ from_ count entity).length =
      if entity.offset + entity.length ≤ from_ then entity.offset + entity.length
      else if entity.offset + entity.length ≤ from_ + count then
        entity.offset + entity.length - (from_ - to_)
      else entity.offset + entity.length := by
  rw [movedEntity]
  simp only [EntityInText.extendToLeft, EntityInText.shrinkFromRight]
  split_ifs <;> simp only at * <;> omega

/-- Where the start of an entity gets to: it stays on a character that is replaced. -/
def startPlace (f : QChar → List QChar) (c : QChar) (T : List QChar) (s : Nat) : Nat :=
  if T[s]? = some c then s else place f T s

/-- Where the end of an entity gets to: it stays behind a character that is replaced. -/
def endPlace (f : QChar → List QChar) (c : QChar) (T : List QChar) (e : Nat) : Nat :=
  if T[e - 1]? = some c then e else place f T e

/-- An entity from `s` to `e` when the text from `b` on was moved to the right. -/
structure MovedRight (f : QChar → List QChar) (c : QChar) (T : List QChar) (b s e : Nat)
    (entity : EntityInText) : Prop where
  unmoved : s < b → entity.offset = s
  moved : b ≤ s → s ≤ entity.offset ∧ entity.offset ≤ place f T s
  empty : s = e → entity.length = 0
  start : s < e → b ≤ s → entity.offset = startPlace f c T s
  finish : s < e →
    entity.offset + entity.length = if e ≤ b then (e : Int) else endPlace f c T e

/-- An entity from `s` to `e` when the text up to `b` was moved to the left. -/
structure MovedLeft (f : QChar → List QChar) (c : QChar) (T : List QChar) (b s e : Nat)
    (entity : EntityInText) : Prop where
  unmoved : b ≤ s → entity.offset = s
  moved : s < b → entity.offset ≤ s
  empty : s = e → entity.length = 0
  start : s < e → s < b → entity.offset = startPlace f c T s
  finish : s < e →
    entity.offset + entity.length = if b < e then (e : Int) else endPlace f c T e

theorem place_part (hpart : ∀ q, i ≤ q → q < b → ∃ a, T[q]? = some a ∧ (f a).length = 1)
    (hi : i ≤ p) (hp : p ≤ b) : place f T p = place f T i + (p - i) := by
  induction p with
  | zero =>
    obtain rfl : i = 0 := by omega
    rfl
  | succ p ih =>
    by_cases hlt : i ≤ p
    · obtain ⟨a, ha, hone⟩ := hpart p hlt (by omega)
      rw [place_add_one ha, ih hlt (by omega), hone]
      omega
    · obtain rfl : i = p + 1 := by omega
      simp

theorem startPlace_part
    (hpart : ∀ q, i ≤ q → q < b → ∃ a, T[q]? = some a ∧ (f a).length = 1 ∧ a ≠ c)
    (hs : i ≤ s) (hsb : s < b) : startPlace f c T s = place f T i + (s - i) := by
  obtain ⟨a, ha, -, hne⟩ := hpart s hs hsb
  have hnot : T[s]? ≠ some c := by simp [ha, hne]
  rw [startPlace, if_neg hnot]
  apply place_part (b := b) _ hs (Nat.le_of_lt hsb)
  intro q hq hqb
  obtain ⟨a, ha, hone, -⟩ := hpart q hq hqb
  exact ⟨a, ha, hone⟩

theorem endPlace_part
    (hpart : ∀ q, i ≤ q → q < b → ∃ a, T[q]? = some a ∧ (f a).length = 1 ∧ a ≠ c)
    (he : i < e) (heb : e ≤ b) : endPlace f c T e = place f T i + (e - i) := by
  obtain ⟨a, ha, -, hne⟩ := hpart (e - 1) (by omega) (by omega)
  have hnot : T[e - 1]? ≠ some c := by simp [ha, hne]
  rw [endPlace, if_neg hnot]
  apply place_part (b := b) _ (Nat.le_of_lt he) heb
  intro q hq hqb
  obtain ⟨a, ha, hone, -⟩ := hpart q hq hqb
  exact ⟨a, ha, hone⟩

theorem le_endPlace (hge : ∀ q ≤ T.length, q ≤ place f T q) (he : e ≤ T.length) :
    e ≤ endPlace f c T e := by
  rw [endPlace]
  split
  · exact Nat.le_refl e
  · exact hge e he

/-- The part from `i` to `b` is moved to the right. -/
theorem MovedRight.part (h : MovedRight f c T b s e entity) (he : e ≤ T.length)
    (hge : ∀ q ≤ T.length, q ≤ place f T q) (hlt : entity.offset < b) (hib : i < b)
    (hpart : ∀ q, i ≤ q → q < b → ∃ a, T[q]? = some a ∧ (f a).length = 1 ∧ a ≠ c) :
    MovedRight f c T i s e (movedEntity (place f T i) i (b - i) entity) := by
  have hsb : s < b := by
    by_contra hnot
    have hmoved := h.moved (by omega)
    omega
  have hoffset := h.unmoved hsb
  have hi : i ≤ place f T i := by
    by_cases hiT : i ≤ T.length
    · exact hge i hiT
    · obtain ⟨a, ha, -⟩ := hpart i (Nat.le_refl i) hib
      have hlen := (List.getElem?_eq_some_iff.mp ha).1
      omega
  have hendGe : e ≤ endPlace f c T e := le_endPlace hge he
  have hoffset' := movedEntity_offset (place f T i) i (b - i) entity
  have hend' := movedEntity_end (place f T i) i (b - i) entity
  generalize movedEntity (place f T i) i (b - i) entity = entity' at hoffset' hend' ⊢
  constructor
  · intro hs
    rw [hoffset']
    split_ifs
    · exact hoffset
    · omega
    · exact hoffset
  · intro hs
    have hplace : place f T s = place f T i + (s - i) := by
      apply place_part (b := b) _ hs (Nat.le_of_lt hsb)
      intro q hq hqb
      obtain ⟨a, ha, hone, -⟩ := hpart q hq hqb
      exact ⟨a, ha, hone⟩
    rw [hoffset', hplace]
    split_ifs <;> omega
  · intro hse
    have hempty := h.empty hse
    split_ifs at hoffset' hend' <;> omega
  · intro hse hs
    have hfinish := h.finish hse
    have hbehind : i < entity.offset + entity.length := by
      split_ifs at hfinish <;> omega
    rw [hoffset', if_neg (by omega), if_pos (by omega), startPlace_part hpart hs hsb]
    omega
  · intro hse
    have hfinish := h.finish hse
    by_cases heb : e ≤ b
    · rw [if_pos heb] at hfinish
      by_cases hei : e ≤ i
      · rw [hend', if_pos (by omega), if_pos hei, hfinish]
      · rw [hend', if_neg (by omega), if_pos (by omega), if_neg hei,
          endPlace_part hpart (by omega) heb, hfinish]
        omega
    · rw [if_neg heb] at hfinish
      rw [hend', if_neg (by omega), if_neg (by omega), if_neg (by omega), hfinish]

theorem startPlace_le (hle : ∀ q, place f T q ≤ q) : startPlace f c T s ≤ s := by
  rw [startPlace]
  split
  · exact Nat.le_refl s
  · exact hle s

theorem endPlace_le (hle : ∀ q, place f T q ≤ q) : endPlace f c T e ≤ e := by
  rw [endPlace]
  split
  · exact Nat.le_refl e
  · exact hle e

/-- The part from `b` to `i` is moved to the left. -/
theorem MovedLeft.part (h : MovedLeft f c T b s e entity) (hle : ∀ q, place f T q ≤ q)
    (hlt : entity.offset < i) (hbi : b < i)
    (hpart : ∀ q, b ≤ q → q < i → ∃ a, T[q]? = some a ∧ (f a).length = 1 ∧ a ≠ c) :
    MovedLeft f c T i s e (movedEntity (place f T b) b (i - b) entity) := by
  have hb := hle b
  have hendLe : endPlace f c T e ≤ e := endPlace_le hle
  have hoffset' := movedEntity_offset (place f T b) b (i - b) entity
  have hend' := movedEntity_end (place f T b) b (i - b) entity
  generalize movedEntity (place f T b) b (i - b) entity = entity' at hoffset' hend' ⊢
  constructor
  · intro hs
    have hoffset := h.unmoved (by omega)
    omega
  · intro hs
    by_cases hsb : s < b
    · have hmoved := h.moved hsb
      rw [hoffset']
      split_ifs <;> omega
    · have hoffset := h.unmoved (by omega)
      rw [hoffset']
      split_ifs <;> omega
  · intro hse
    have hempty := h.empty hse
    split_ifs at hoffset' hend' <;> omega
  · intro hse hs
    by_cases hsb : s < b
    · have hstart := h.start hse hsb
      have hstartLe : startPlace f c T s ≤ s := startPlace_le hle
      rw [hoffset']
      split_ifs <;> omega
    · have hoffset := h.unmoved (by omega)
      have hfinish := h.finish hse
      have hbehind : b < entity.offset + entity.length := by
        rw [hfinish]
        split_ifs <;> omega
      rw [hoffset', if_neg (by omega), if_pos (by omega),
        startPlace_part hpart (by omega) hs]
      omega
  · intro hse
    have hfinish := h.finish hse
    by_cases hbe : b < e
    · rw [if_pos hbe] at hfinish
      by_cases hie : i < e
      · rw [hend', if_neg (by omega), if_neg (by omega), if_pos hie, hfinish]
      · rw [hend', if_neg (by omega), if_pos (by omega), if_neg hie,
          endPlace_part hpart hbe (by omega), hfinish]
        omega
    · rw [if_neg hbe] at hfinish
      rw [hend', if_pos (by omega), if_neg (by omega), hfinish]

theorem MovedRight.behind (h : MovedRight f c T b s e entity) (hge : b ≤ entity.offset)
    (hib : i ≤ b) : MovedRight f c T i s e entity := by
  have hs : b ≤ s := by
    by_contra hnot
    have hoffset := h.unmoved (by omega)
    omega
  constructor
  · intro hsi
    omega
  · exact fun _ => h.moved hs
  · exact h.empty
  · exact fun hse _ => h.start hse hs
  · intro hse
    rw [h.finish hse, if_neg (by omega), if_neg (by omega)]

theorem MovedRight.stays (h : MovedRight f c T b s s entity) (hib : i ≤ b)
    (hge : ∀ q ≤ T.length, q ≤ place f T q) (hs : s ≤ T.length) :
    MovedRight f c T i s s entity := by
  have hplace := hge s hs
  constructor
  · exact fun hsi => h.unmoved (by omega)
  · intro his
    by_cases hsb : s < b
    · have hoffset := h.unmoved hsb
      omega
    · exact h.moved (by omega)
  · exact h.empty
  · exact fun hss => absurd hss (Nat.lt_irrefl s)
  · exact fun hss => absurd hss (Nat.lt_irrefl s)

theorem MovedLeft.stays (h : MovedLeft f c T b s s entity) (hbi : b ≤ i) :
    MovedLeft f c T i s s entity := by
  constructor
  · exact fun hsi => h.unmoved (by omega)
  · intro his
    by_cases hsb : s < b
    · exact h.moved hsb
    · have hoffset := h.unmoved (by omega)
      omega
  · exact h.empty
  · exact fun hss => absurd hss (Nat.lt_irrefl s)
  · exact fun hss => absurd hss (Nat.lt_irrefl s)

theorem MovedLeft.behind (h : MovedLeft f c T b s e entity) (hge : i ≤ entity.offset)
    (hbi : b ≤ i) : MovedLeft f c T i s e entity := by
  have hs : b ≤ s := by
    by_contra hnot
    have hoffset := h.moved (by omega)
    omega
  have hoffset := h.unmoved hs
  constructor
  · exact fun _ => hoffset
  · intro hsi
    omega
  · exact h.empty
  · intro hse hsi
    omega
  · intro hse
    rw [h.finish hse, if_pos (by omega), if_pos (by omega)]

/-- Entities that start or end at a character that is replaced stay. -/
theorem MovedRight.replaced (h : MovedRight f c T (b + 1) s e entity) (hc : T[b]? = some c)
    (hge : b ≤ place f T b) : MovedRight f c T b s e entity := by
  constructor
  · exact fun hs => h.unmoved (by omega)
  · intro hs
    by_cases hsb : s = b
    · subst hsb
      have hoffset := h.unmoved (Nat.lt_succ_self s)
      omega
    · exact h.moved (by omega)
  · exact h.empty
  · intro hse hs
    by_cases hsb : s = b
    · subst hsb
      rw [startPlace, if_pos hc]
      exact h.unmoved (Nat.lt_succ_self s)
    · exact h.start hse (by omega)
  · intro hse
    rw [h.finish hse]
    by_cases heb : e = b + 1
    · subst heb
      rw [endPlace, Nat.add_sub_cancel, if_pos hc]
      simp
    · by_cases hle : e ≤ b
      · rw [if_pos (by omega), if_pos hle]
      · rw [if_neg (by omega), if_neg hle]

theorem MovedLeft.replaced (h : MovedLeft f c T b s e entity) (hc : T[b]? = some c) :
    MovedLeft f c T (b + 1) s e entity := by
  constructor
  · exact fun hs => h.unmoved (by omega)
  · intro hs
    by_cases hsb : s = b
    · exact (h.unmoved hsb.ge).le
    · exact h.moved (by omega)
  · exact h.empty
  · intro hse hs
    by_cases hsb : s = b
    · subst hsb
      rw [startPlace, if_pos hc]
      exact h.unmoved (Nat.le_refl s)
    · exact h.start hse (by omega)
  · intro hse
    rw [h.finish hse]
    by_cases heb : e = b + 1
    · subst heb
      rw [endPlace, Nat.add_sub_cancel, if_pos hc]
      simp
    · by_cases hlt : b + 1 < e
      · rw [if_pos (by omega), if_pos hlt]
      · rw [if_neg (by omega), if_neg hlt]

theorem MovedRight.first (h : MovedRight f c T b s e entity)
    (hpart : ∀ q, q < b → ∃ a, T[q]? = some a ∧ (f a).length = 1 ∧ a ≠ c) :
    MovedRight f c T 0 s e entity := by
  have hall : ∀ q, 0 ≤ q → q < b → ∃ a, T[q]? = some a ∧ (f a).length = 1 ∧ a ≠ c :=
    fun q _ => hpart q
  have hzero : place f T 0 = 0 := place_zero
  have hplace : s < b → place f T s = s := by
    intro hs
    have hsum := @place_part T f b 0 s
      (fun q _ hqb => by
        obtain ⟨a, ha, hone, -⟩ := hpart q hqb
        exact ⟨a, ha, hone⟩) (Nat.zero_le s) (Nat.le_of_lt hs)
    omega
  constructor
  · exact fun hs => absurd hs (Nat.not_lt_zero s)
  · intro _
    by_cases hs : s < b
    · rw [h.unmoved hs, hplace hs]
      exact ⟨le_rfl, le_rfl⟩
    · exact h.moved (by omega)
  · exact h.empty
  · intro hse _
    by_cases hs : s < b
    · rw [h.unmoved hs, startPlace_part hall (Nat.zero_le s) hs]
      omega
    · exact h.start hse (by omega)
  · intro hse
    rw [h.finish hse]
    by_cases he : e ≤ b
    · rw [if_pos he, if_neg (by omega), endPlace_part hall (by omega) he]
      omega
    · rw [if_neg he, if_neg (by omega)]

/-- The entity comes from another one, which goes from `s` to `e`. -/
def Track (M : Nat → Nat → EntityInText → Prop) (n : Nat) (raw entity : EntityInText) : Prop :=
  raw.SameKind entity ∧ ∃ s e : Nat, raw.offset = s ∧ raw.offset + raw.length = e ∧ s ≤ e ∧
    e ≤ n ∧ M s e entity

theorem Track.imp {M M' : Nat → Nat → EntityInText → Prop} {n : Nat} {raw : EntityInText}
    (h : Track M n raw entity) (hM : ∀ s e, e ≤ n → M s e entity → M' s e entity) :
    Track M' n raw entity := by
  obtain ⟨hkind, s, e, hs, he, hse, hn, hmoved⟩ := h
  exact ⟨hkind, s, e, hs, he, hse, hn, hM s e hn hmoved⟩

theorem Track.stays {M M' : Nat → Nat → EntityInText → Prop} {n : Nat} {raw : EntityInText}
    (h : Track M n raw entity) (hlength : ¬ 0 < raw.length)
    (hM : ∀ s, s ≤ n → M s s entity → M' s s entity) : Track M' n raw entity := by
  obtain ⟨hkind, s, e, hs, he, hse, hn, hmoved⟩ := h
  obtain rfl : s = e := by omega
  exact ⟨hkind, s, s, hs, he, hse, hn, hM s hn hmoved⟩

theorem movedEntity_sameKind : entity.SameKind (movedEntity to_ from_ count entity) := by
  rw [movedEntity]
  dsimp only
  split_ifs <;> exact ⟨rfl, rfl⟩

theorem Track.part {M M' : Nat → Nat → EntityInText → Prop} {n : Nat} {raw : EntityInText}
    (h : Track M n raw entity)
    (hM : ∀ s e, e ≤ n → M s e entity → M' s e (movedEntity to_ from_ count entity)) :
    Track M' n raw (movedEntity to_ from_ count entity) := by
  obtain ⟨⟨htype, hdata⟩, s, e, hs, he, hse, hn, hmoved⟩ := h
  obtain ⟨htype', hdata'⟩ := @movedEntity_sameKind to_ from_ count entity
  exact ⟨⟨htype.trans htype', hdata.trans hdata'⟩, s, e, hs, he, hse, hn, hM s e hn hmoved⟩

/-- The loop may break at the first entity behind the part: the later ones are behind it too, or
have no characters. -/
theorem moveEntities_forall {R R' : EntityInText → EntityInText → Prop}
    (h : List.Forall₂ R raws entities)
    (hsorted : raws.Pairwise fun a b => 0 < b.length → a.offset ≤ b.offset)
    (hguard : ∀ raw entity, R raw entity →
      ((from_ + count : Int) ≤ entity.offset ↔ (from_ + count : Int) ≤ raw.offset))
    (hempty : ∀ raw entity, R raw entity → ¬ 0 < raw.length → R' raw entity)
    (hbehind : ∀ raw entity, R raw entity → (from_ + count : Int) ≤ entity.offset → R' raw entity)
    (hmoved : ∀ raw entity, R raw entity → entity.offset < (from_ + count : Int) →
      R' raw (movedEntity to_ from_ count entity)) :
    List.Forall₂ R' raws (moveEntities to_ from_ count entities) := by
  induction h with
  | nil => exact .nil
  | @cons raw entity raws entities hR hrest ih =>
    rw [List.pairwise_cons] at hsorted
    rw [moveEntities]
    by_cases hge : entity.offset ≥ from_ + count
    · rw [if_pos hge]
      have hraw := (hguard raw entity hR).mp hge
      refine .cons (hbehind raw entity hR hge) ?_
      have hall : ∀ r ∈ raws, 0 < r.length → (from_ + count : Int) ≤ r.offset :=
        fun r hr hlength => hraw.trans (hsorted.1 r hr hlength)
      clear ih hsorted hR
      induction hrest with
      | nil => exact .nil
      | @cons r entity' raws entities hR hrest ih =>
        rw [List.forall_mem_cons] at hall
        refine .cons ?_ (ih hall.2)
        by_cases hlength : 0 < r.length
        · exact hbehind r entity' hR ((hguard r entity' hR).mpr (hall.1 hlength))
        · exact hempty r entity' hR hlength
    · rw [if_neg hge]
      exact .cons (hmoved raw entity hR (by omega)) (ih hsorted.2)

end TelegramClient.Text
