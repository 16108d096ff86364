import TelegramClient.Text.Elements
import TelegramClient.Text.Entities
import TelegramClient.Lib.Loops

/-! `CutPart` of `ui/text/text_entity.cpp`, which cuts messages into parts of a size. -/

namespace TelegramClient.Text

open Segments

structure CutScan where
  currentEntity : Nat := 0
  good : Nat := 0
  goodEntity : Nat := 0
  goodInEntity : Bool := false
  goodCanBreakEntity : Bool := false
  goodLevel : Nat := 0
  deriving DecidableEq, Repr

/-- The entities that end before a place are passed. -/
def nextEntity (entities : List EntityInText) (ch currentEntity : Nat) : Nat :=
  if h : currentEntity < entities.length then
    if entities[currentEntity].offset + entities[currentEntity].length ≤ ch then
      nextEntity entities ch (currentEntity + 1)
    else currentEntity
  else currentEntity
termination_by entities.length - currentEntity

def EntityInText.isAround (ch : Nat) (entity : EntityInText) : Bool :=
  entity.offset < ch && ch < entity.offset + entity.length

def breakLevel (p : Platform) (t : TextWithEntities) (ch currentEntity : Nat) : Nat :=
  let current := t.entities[currentEntity]?
  let inEntity := current.any (·.isAround ch)
  let noEntityLevel := if inEntity then 0 else 1
  if inEntity && !current.any (·.isMonospace) then 0
  else if t.text[ch]?.any chIsNewline then
    if inEntity then if t.text[ch + 1]?.any chIsNewline then 12 else 11
    else if t.text[ch + 1]?.any chIsNewline then 15
    else if current.any fun entity => (ch + 1 : Int) = entity.offset && entity.type = .pre then 14
    else if 0 < currentEntity && t.entities[currentEntity - 1]?.any fun entity =>
        (ch : Int) = entity.offset + entity.length && entity.type = .pre then 14
    else 13
  else if t.text[ch]?.any p.chIsSpace then
    if t.text[ch - 1]?.any chIsSentenceEnd then 9 + noEntityLevel
    else if t.text[ch - 1]?.any chIsSentencePartEnd then 7 + noEntityLevel
    else 5 + noEntityLevel
  else if t.text[ch - 1]?.any chIsWordSeparator then 3 + noEntityLevel
  else 1 + noEntityLevel

def CutScan.markGoodAsLevel (t : TextWithEntities) (ch newLevel : Nat) (scan : CutScan) : CutScan :=
  if scan.goodLevel > newLevel then scan
  else
    { scan with
      goodLevel := newLevel
      good := ch
      goodEntity := scan.currentEntity
      goodInEntity := t.entities[scan.currentEntity]?.any (·.isAround ch)
      goodCanBreakEntity := t.entities[scan.currentEntity]?.any (·.isMonospace) }

/-- What a round does before it looks at the length of the element. -/
def CutScan.visit (p : Platform) (t : TextWithEntities) (limit ch s : Nat) (scan : CutScan) :
    CutScan :=
  let scan := { scan with currentEntity := nextEntity t.entities ch scan.currentEntity }
  if s > limit / 2 then scan.markGoodAsLevel t ch (breakLevel p t ch scan.currentEntity) else scan

variable (p : Platform) (e : EmojiFind)

/-- The loop over the text, with `s` characters in front of `ch`. Nothing if the text is not too
long. -/
def cutScan (t : TextWithEntities) (limit ch s : Nat) (scan : CutScan) : Option CutScan :=
  if ch < t.text.length then
    let scan := scan.visit p t limit ch s
    let points := e.elementPoints (t.text.drop ch)
    if s + points - 1 ≥ limit then some scan
    else cutScan t limit (ch + e.elementLength (t.text.drop ch)) (s + points) scan
  else none
termination_by t.text.length - ch
decreasing_by
  have hpos := e.elementLength_pos (t.text.drop ch)
  omega

/-- The part to send, and what is left. -/
def cutAt (t : TextWithEntities) (scan : CutScan) : TextWithEntities × TextWithEntities :=
  let text := t.text.take scan.good
  let left := t.text.drop scan.good
  if scan.goodInEntity then
    if scan.goodCanBreakEntity then
      (⟨text, (t.entities.take (scan.goodEntity + 1)).modifyLast (·.updateTextEnd scan.good)⟩,
        ⟨left, (t.entities.drop scan.goodEntity).map (·.shiftLeft scan.good)⟩)
    else (⟨text, t.entities.take scan.goodEntity⟩, ⟨left, t.entities.drop (scan.goodEntity + 1)⟩)
  else
    (⟨text, t.entities.take scan.goodEntity⟩,
      ⟨left, (t.entities.drop scan.goodEntity).map (·.shiftLeft scan.good)⟩)

def cutPart (left : TextWithEntities) (limit : Nat) : Option (TextWithEntities × TextWithEntities) :=
  if left.text = [] || limit = 0 then none
  else
    match cutScan p e left limit 0 0 {} with
    | some scan => some (cutAt left scan)
    | none => some (left, {})

/-- A round of the loop that sends the parts. -/
def cutStep (limit : Nat) (s : TextWithEntities × List TextWithEntities) :
    List TextWithEntities ⊕ (TextWithEntities × List TextWithEntities) :=
  match cutPart p e s.1 limit with
  | none => .inl s.2
  | some (sending, left) => .inr (left, s.2 ++ [sending])

/-- The parts that are sent if the loop ends within `n` rounds. -/
def cutParts (limit n : Nat) (left : TextWithEntities) : Option (List TextWithEntities) :=
  Loops.iterate (cutStep p e limit) n (left, [])

variable {p e} {t : TextWithEntities} {entities : List EntityInText} {limit ch s b k q : Nat}
  {scan : CutScan}

/-! ## The place of the cut -/

/-- The entity that ends first behind a place. -/
structure EntityAt (entities : List EntityInText) (ch k : Nat) : Prop where
  passed : ∀ i < k, ∀ entity, entities[i]? = some entity → entity.offset + entity.length ≤ ch
  current : ∀ entity, entities[k]? = some entity → (ch : Int) < entity.offset + entity.length

theorem nextEntity_spec
    (h : ∀ i < k, ∀ entity, entities[i]? = some entity → entity.offset + entity.length ≤ ch) :
    EntityAt entities ch (nextEntity entities ch k) := by
  induction hn : entities.length - k using Nat.strong_induction_on generalizing k with
  | _ n ih =>
    rw [nextEntity]
    split
    next hlt =>
      split
      next hpassed =>
        apply ih _ (by omega) _ rfl
        intro i hi entity hentity
        by_cases hlast : i = k
        · subst hlast
          rw [List.getElem?_eq_getElem hlt, Option.some.injEq] at hentity
          rw [← hentity]
          exact hpassed
        · exact h i (by omega) entity hentity
      next hnot =>
        refine ⟨h, ?_⟩
        intro entity hentity
        rw [List.getElem?_eq_getElem hlt, Option.some.injEq] at hentity
        rw [← hentity]
        omega
    next hge =>
      refine ⟨h, ?_⟩
      intro entity hentity
      rw [List.getElem?_eq_none (by omega)] at hentity
      cases hentity

/-- The place is in an entity that is not broken. -/
def Unbreakable (entities : List EntityInText) (q : Nat) : Prop :=
  ∃ entity ∈ entities, entity.isMonospace = false ∧ entity.isAround q

structure Window (e : EmojiFind) (text : List QChar) (limit q : Nat) : Prop where
  start : Start e.reading text q
  half : limit / 2 < codePoints (text.take q)
  le : codePoints (text.take q) ≤ limit

structure Good (e : EmojiFind) (t : TextWithEntities) (limit : Nat) (scan : CutScan) : Prop where
  window : Window e t.text limit scan.good
  entity : EntityAt t.entities scan.good scan.goodEntity
  inEntity : scan.goodInEntity = t.entities[scan.goodEntity]?.any (·.isAround scan.good)
  canBreak : scan.goodCanBreakEntity = t.entities[scan.goodEntity]?.any (·.isMonospace)
  level : scan.goodInEntity = true → scan.goodCanBreakEntity = false → scan.goodLevel = 0

structure Marked (e : EmojiFind) (t : TextWithEntities) (limit b : Nat) (scan : CutScan) : Prop where
  good : (∃ q < b, Window e t.text limit q) → Good e t limit scan
  level : scan.goodLevel = 0 → ∀ q < b, Window e t.text limit q →
    Unbreakable t.entities q ∧ q ≤ scan.good
  fresh : (∀ q < b, ¬ Window e t.text limit q) → scan.goodLevel = 0

theorem breakLevel_eq_zero :
    breakLevel p t ch k = 0 ↔ t.entities[k]?.any (·.isAround ch) = true ∧
      t.entities[k]?.any (·.isMonospace) = false := by
  rw [breakLevel]
  generalize t.entities[k]?.any (·.isAround ch) = inEntity
  generalize t.entities[k]?.any (·.isMonospace) = canBreakEntity
  cases inEntity
  · simp only [Bool.false_and, Bool.false_eq_true, if_false, false_and, iff_false]
    split_ifs <;> simp
  · cases canBreakEntity
    · simp
    · simp only [Bool.not_true, Bool.and_false, Bool.false_eq_true, if_false, if_true,
        Bool.true_eq_false, and_false, iff_false]
      split_ifs <;> simp

theorem unbreakable_of_any (hin : t.entities[k]?.any (·.isAround ch) = true)
    (hbreak : t.entities[k]?.any (·.isMonospace) = false) : Unbreakable t.entities ch := by
  cases hentity : t.entities[k]? with
  | none =>
    rw [hentity] at hin
    cases hin
  | some entity =>
    rw [hentity] at hin hbreak
    exact ⟨entity, List.mem_of_getElem? hentity, hbreak, hin⟩

theorem visit_marked (h : Marked e t limit ch scan) (hstart : Start e.reading t.text ch)
    (hle : codePoints (t.text.take ch) ≤ limit)
    (hpassed : ∀ i < scan.currentEntity, ∀ entity, t.entities[i]? = some entity →
      entity.offset + entity.length ≤ ch) :
    EntityAt t.entities ch
        (scan.visit p t limit ch (codePoints (t.text.take ch))).currentEntity ∧
      Marked e t limit (ch + 1) (scan.visit p t limit ch (codePoints (t.text.take ch))) := by
  have hentity := nextEntity_spec hpassed
  rw [CutScan.visit]
  generalize nextEntity t.entities ch scan.currentEntity = current at hentity
  dsimp only
  split
  next hhalf =>
    have hwindow : Window e t.text limit ch := ⟨hstart, hhalf, hle⟩
    rw [CutScan.markGoodAsLevel]
    dsimp only
    split
    next hmore =>
      -- the place that was marked before is better
      refine ⟨hentity, ?_⟩
      have hmarked : ∃ q < ch, Window e t.text limit q := by
        by_contra hnone
        push Not at hnone
        have hfresh := h.fresh hnone
        omega
      have hgood := h.good hmarked
      constructor
      · exact fun _ => ⟨hgood.window, hgood.entity, hgood.inEntity, hgood.canBreak, hgood.level⟩
      · intro hzero
        dsimp only at hzero
        omega
      · intro hnone
        exact absurd hwindow (hnone ch (Nat.lt_succ_self ch))
    next hbetter =>
      refine ⟨hentity, ?_⟩
      constructor
      · intro _
        refine ⟨hwindow, hentity, rfl, rfl, ?_⟩
        intro hin hbreak
        exact breakLevel_eq_zero.mpr ⟨hin, hbreak⟩
      · intro hzero q hq hwindow'
        dsimp only at hzero ⊢
        by_cases hsame : q = ch
        · subst hsame
          obtain ⟨hin, hbreak⟩ := breakLevel_eq_zero.mp hzero
          exact ⟨unbreakable_of_any hin hbreak, le_rfl⟩
        · have hlevel := h.level (by omega) q (by omega) hwindow'
          exact ⟨hlevel.1, by omega⟩
      · intro hnone
        exact absurd hwindow (hnone ch (Nat.lt_succ_self ch))
  next hhalf =>
    have hnot : ¬ Window e t.text limit ch := fun hwindow => hhalf hwindow.half
    have hbefore : ∀ q < ch + 1, Window e t.text limit q → q < ch := by
      intro q hq hwindow
      by_contra hge
      have hsame : q = ch := by omega
      exact hnot (hsame ▸ hwindow)
    refine ⟨hentity, ?_⟩
    constructor
    · intro hsome
      obtain ⟨q, hq, hwindow⟩ := hsome
      have hgood := h.good ⟨q, hbefore q hq hwindow, hwindow⟩
      exact ⟨hgood.window, hgood.entity, hgood.inEntity, hgood.canBreak, hgood.level⟩
    · exact fun hzero q hq hwindow => h.level hzero q (hbefore q hq hwindow) hwindow
    · exact fun hnone => h.fresh fun q hq => hnone q (by omega)

/-- No emoji takes half of the limit. -/
def EmojiFind.Short (e : EmojiFind) (limit : Nat) : Prop :=
  ∀ text n, e.find text = some n → 2 * codePoints (text.take n) < limit

theorem elementPoints_pos {text : List QChar} (h : text ≠ []) : 0 < e.elementPoints text := by
  rw [elementPoints_eq h]
  apply codePoints_pos
  have hpos := e.elementLength_pos text
  have hlen := List.length_pos_iff.mpr h
  intro hnil
  have hzero := congrArg List.length hnil
  rw [List.length_take, List.length_nil] at hzero
  omega

theorem elementPoints_le {text : List QChar} (h : e.Short limit) :
    e.elementPoints text = 1 ∨ 2 * e.elementPoints text < limit := by
  rw [EmojiFind.elementPoints]
  split
  next elen hfind => exact .inr (h text elen hfind)
  next => exact .inl rfl

/-- The text is cut at a place that is marked, unless it is not too long. -/
inductive CutPlace (e : EmojiFind) (t : TextWithEntities) (limit : Nat) : Option CutScan → Prop
  | whole (hle : codePoints t.text ≤ limit) : CutPlace e t limit none
  | cut (scan : CutScan) (hlt : limit < codePoints t.text) (hgood : Good e t limit scan)
      (hlevel : scan.goodLevel = 0 → ∀ q, Window e t.text limit q →
        Unbreakable t.entities q ∧ q ≤ scan.good) : CutPlace e t limit (some scan)

theorem cutScan_spec (hshort : e.Short limit) (hpos : 0 < limit)
    (hstart : Start e.reading t.text ch) (hle : codePoints (t.text.take ch) ≤ limit)
    (hpassed : ∀ i < scan.currentEntity, ∀ entity, t.entities[i]? = some entity →
      entity.offset + entity.length ≤ ch)
    (h : Marked e t limit ch scan) :
    CutPlace e t limit (cutScan p e t limit ch (codePoints (t.text.take ch)) scan) := by
  induction hn : t.text.length - ch using Nat.strong_induction_on generalizing ch scan with
  | _ n ih =>
    rw [cutScan]
    split
    next hlt =>
      obtain ⟨hentity, hmarked⟩ := visit_marked (p := p) h hstart hle hpassed
      generalize scan.visit p t limit ch (codePoints (t.text.take ch)) = scan' at hentity hmarked
      have hnext := codePoints_next hstart hlt
      have hpoints := @elementPoints_pos e _ (drop_ne_nil hlt)
      have hlength := e.elementLength_pos (t.text.drop ch)
      have hstart' := Start.next ch hstart hlt
      have hinside : ∀ q, Window e t.text limit q →
          q ≤ ch ∨ ch + e.elementLength (t.text.drop ch) ≤ q := by
        intro q hq
        by_contra hnot
        have hle := hstart.not_inside hq.start (by omega)
        change ch + e.elementLength (t.text.drop ch) ≤ q at hle
        omega
      dsimp only
      split
      next hcut =>
        have hborder := notInPair_of_start hstart'
        have hall := codePoints_take_le hborder (e.reading.add_drop_le hlt)
        change codePoints (t.text.take (ch + e.elementLength (t.text.drop ch))) ≤ _ at hall
        rw [List.take_length] at hall
        have hwindow : Window e t.text limit ch := by
          refine ⟨hstart, ?_, hle⟩
          rcases @elementPoints_le e limit (t.text.drop ch) hshort with hone | hshort
          · omega
          · omega
        refine .cut scan' (by omega) (hmarked.good ⟨ch, Nat.lt_succ_self ch, hwindow⟩) ?_
        intro hzero q hq
        apply hmarked.level hzero q _ hq
        rcases hinside q hq with hbefore | hbehind
        · omega
        · have hmore := codePoints_take_le hborder hbehind
          change codePoints (t.text.take (ch + e.elementLength (t.text.drop ch))) ≤ _ at hmore
          have hqle := hq.le
          omega
      next hmore =>
        have hagain := @ih (t.text.length - (ch + e.elementLength (t.text.drop ch))) (by omega)
          (ch + e.elementLength (t.text.drop ch)) scan' hstart' (by omega)
          (by
            intro i hi entity hentity'
            have hle := hentity.passed i hi entity hentity'
            omega)
          (by
            constructor
            · intro hsome
              obtain ⟨q, hq, hwindow⟩ := hsome
              rcases hinside q hwindow with hbefore | hbehind
              · exact hmarked.good ⟨q, by omega, hwindow⟩
              · omega
            · intro hzero q hq hwindow
              rcases hinside q hwindow with hbefore | hbehind
              · exact hmarked.level hzero q (by omega) hwindow
              · omega
            · intro hnone
              exact hmarked.fresh fun q hq => hnone q (by omega))
          rfl
        rw [hnext] at hagain
        exact hagain
    next hend =>
      have hsame : ch = t.text.length := by
        have hlen := hstart.le_length
        omega
      rw [hsame, List.take_length] at hle
      exact .whole hle

theorem cutScan_start (hshort : e.Short limit) (hpos : 0 < limit) :
    CutPlace e t limit (cutScan p e t limit 0 0 {}) := by
  have hmarked : Marked e t limit 0 {} := by
    constructor
    · intro hsome
      obtain ⟨q, hq, -⟩ := hsome
      omega
    · intro _ q hq
      omega
    · exact fun _ => rfl
  have hspec := @cutScan_spec p e t limit 0 {} hshort hpos .zero (by simp [codePoints])
    (by intro i hi; exact absurd hi (Nat.not_lt_zero i)) hmarked
  exact hspec

end TelegramClient.Text
