import TelegramClient.Text.CutEntities
import TelegramClient.Lib.Rewriting

/-! The loop that sends a message in parts. -/

namespace TelegramClient.Text

open Segments Rewriting

/-- A text that is too long can be cut where no entity has to be dropped, or behind the start of
each entity. -/
def Shifts (e : EmojiFind) (limit : Nat) (left : TextWithEntities) : Prop :=
  limit < codePoints left.text → ∃ q, Window e left.text limit q ∧
    ((∀ entity ∈ left.entities, entity.isAround q → entity.isMonospace) ∨
      ∀ entity ∈ left.entities, entity.offset < q)

/-- What is left in some round. -/
inductive Reached (p : Platform) (e : EmojiFind) (limit : Nat) (t : TextWithEntities) :
    TextWithEntities → Prop
  | start : Reached p e limit t t
  | next (left sending rest : TextWithEntities) (h : Reached p e limit t left)
      (hcut : cutPart p e left limit = some (sending, rest)) : Reached p e limit t rest

/-- The parts that are sent. -/
inductive Cuts (p : Platform) (e : EmojiFind) (limit : Nat) :
    TextWithEntities → List TextWithEntities → Prop
  | done (left : TextWithEntities) (h : left.text = []) : Cuts p e limit left []
  | cut (left sending rest : TextWithEntities) (parts : List TextWithEntities)
      (hcut : cutPart p e left limit = some (sending, rest)) (h : Cuts p e limit rest parts) :
      Cuts p e limit left (sending :: parts)

variable {p : Platform} {e : EmojiFind} {limit a g : Nat} {t left sending rest : TextWithEntities}
  {parts : List TextWithEntities} {scan : CutScan} {text : List QChar}

/-! ## One cut -/

theorem mem_take_iff {l : List EntityInText} {k : Nat} {entity : EntityInText} :
    entity ∈ l.take k ↔ ∃ i < k, l[i]? = some entity := by
  rw [List.mem_iff_getElem?]
  constructor
  · intro h
    obtain ⟨i, hi⟩ := h
    rw [List.getElem?_take] at hi
    split at hi
    next hlt => exact ⟨i, hlt, hi⟩
    next => cases hi
  · intro h
    obtain ⟨i, hlt, hi⟩ := h
    exact ⟨i, by rw [List.getElem?_take, if_pos hlt, hi]⟩

theorem EntityAt.ends {entities : List EntityInText} {k : Nat} (h : EntityAt entities g k) :
    ∀ entity ∈ entities.take k, entity.offset + entity.length ≤ g := by
  intro entity hentity
  obtain ⟨i, hlt, hi⟩ := mem_take_iff.mp hentity
  exact h.passed i hlt entity hi

theorem Good.halves_around (hgood : Good e t limit scan) (hvalid : t.Valid)
    (hin : scan.goodInEntity = true) :
    ∃ middle, t.entities[scan.goodEntity]? = some middle ∧
      Halves t scan.good (t.entities.take scan.goodEntity) [middle]
        (t.entities.drop (scan.goodEntity + 1)) := by
  have hany := hgood.inEntity
  rw [hin] at hany
  cases hmiddle : t.entities[scan.goodEntity]? with
  | none =>
    rw [hmiddle] at hany
    cases hany
  | some middle =>
    rw [hmiddle, Option.any_some] at hany
    obtain ⟨hlt, hget⟩ := List.getElem?_eq_some_iff.mp hmiddle
    have hsplit : t.entities = t.entities.take scan.goodEntity ++ [middle] ++
        t.entities.drop (scan.goodEntity + 1) := by
      rw [List.append_assoc, List.singleton_append, ← hget, ← List.drop_eq_getElem_cons hlt,
        List.take_append_drop]
    have hsorted := hvalid.sorted
    rw [hsplit, List.pairwise_append] at hsorted
    refine ⟨middle, rfl, hsplit, hgood.entity.ends, ?_, ?_⟩
    · intro entity hentity
      rw [List.mem_singleton.mp hentity, ← hany]
    · intro entity hentity
      have hle := hsorted.2.2 middle (List.mem_append_right _ (List.mem_singleton_self middle))
        entity hentity
      have hcurrent := hgood.entity.current middle hmiddle
      omega

theorem Good.halves (hgood : Good e t limit scan) (hvalid : t.Valid)
    (hin : scan.goodInEntity = false) :
    Halves t scan.good (t.entities.take scan.goodEntity) [] (t.entities.drop scan.goodEntity) := by
  have hany := hgood.inEntity
  rw [hin] at hany
  refine ⟨?_, hgood.entity.ends, ?_, ?_⟩
  · rw [List.append_nil, List.take_append_drop]
  · intro entity hentity
    cases hentity
  · intro entity hentity
    cases hcurrent : t.entities[scan.goodEntity]? with
    | none =>
      rw [List.drop_eq_nil_of_le (List.getElem?_eq_none_iff.mp hcurrent)] at hentity
      cases hentity
    | some current =>
      rw [hcurrent, Option.any_some] at hany
      have hnot : ¬ current.isAround scan.good = true := by
        rw [← hany]
        exact Bool.false_ne_true
      rw [EntityInText.isAround_iff] at hnot
      have hlt := hgood.entity.current current hcurrent
      obtain ⟨hlen, hget⟩ := List.getElem?_eq_some_iff.mp hcurrent
      have hsorted := hvalid.sorted
      rw [← List.take_append_drop scan.goodEntity t.entities, List.pairwise_append,
        List.drop_eq_getElem_cons hlen, List.pairwise_cons, hget] at hsorted
      rw [List.drop_eq_getElem_cons hlen, hget, List.mem_cons] at hentity
      have hpos := (hvalid.inside current (List.mem_of_getElem? hcurrent)).2.1
      cases hentity with
      | inl hsame =>
        rw [hsame]
        omega
      | inr hrest =>
        have hle := hsorted.2.1.1 entity hrest
        omega

theorem Good.drop_eq_nil (hgood : Good e t limit scan) (hvalid : t.Valid)
    (hlevel : scan.goodLevel = 0 → ∀ q, Window e t.text limit q →
      Unbreakable t.entities q ∧ q ≤ scan.good)
    (hshifts : Shifts e limit t) (hlong : limit < codePoints t.text)
    (hin : scan.goodInEntity = true) (hbreak : scan.goodCanBreakEntity = false) :
    t.entities.drop (scan.goodEntity + 1) = [] := by
  obtain ⟨q, hwindow, hq⟩ := hshifts hlong
  obtain ⟨hunbreakable, hle⟩ := hlevel (hgood.level hin hbreak) q hwindow
  rcases hq with hnone | hbehind
  · obtain ⟨entity, hentity, hmono, haround⟩ := hunbreakable
    rw [hnone entity hentity haround] at hmono
    cases hmono
  · obtain ⟨middle, -, hhalves⟩ := hgood.halves_around hvalid hin
    rw [List.eq_nil_iff_forall_not_mem]
    intro entity hentity
    have hstarts := hhalves.starts entity hentity
    have hlt := hbehind entity (List.mem_of_mem_drop hentity)
    omega

theorem modifyLast_take {l : List EntityInText} {k : Nat} {middle : EntityInText}
    (h : l[k]? = some middle) (f : EntityInText → EntityInText) :
    (l.take (k + 1)).modifyLast f = l.take k ++ [f middle] := by
  rw [List.take_add_one, h, Option.toList_some, List.modifyLast_concat]

theorem cutAt_parts (hgood : Good e t limit scan) (hvalid : t.Valid)
    (hlast : scan.goodInEntity = true → scan.goodCanBreakEntity = false →
      t.entities.drop (scan.goodEntity + 1) = []) :
    IsPartOf t 0 scan.good (cutAt t scan).1 ∧
      IsPartOf t scan.good t.text.length (cutAt t scan).2 := by
  have hg := hgood.window.start.le_length
  rw [cutAt]
  cases hin : scan.goodInEntity with
  | false =>
    have hhalves := hgood.halves hvalid hin
    have hbroken : Broken scan.good [] [] [] := by
      constructor
      · intro entity hentity
        cases hentity
      · intro entity hentity
        cases hentity
      · intro entity hentity
        cases hentity
      · exact ⟨Nat.zero_le 1, Nat.zero_le 1⟩
    have hfirst := hhalves.first_part hbroken hvalid hg
    rw [List.append_nil] at hfirst
    exact ⟨hfirst, hhalves.second_part hbroken hvalid hg⟩
  | true =>
    obtain ⟨middle, hmiddle, hhalves⟩ := hgood.halves_around hvalid hin
    have hbreak := hgood.canBreak
    rw [hmiddle, Option.any_some] at hbreak
    cases hcan : scan.goodCanBreakEntity with
    | true =>
      have hbroken : Broken scan.good [middle] [middle.updateTextEnd scan.good]
          [middle.shiftLeft scan.good] := by
        constructor
        · intro entity hentity
          exact ⟨middle, List.mem_singleton_self middle, List.mem_singleton.mp hentity⟩
        · intro entity hentity
          exact ⟨middle, List.mem_singleton_self middle, List.mem_singleton.mp hentity⟩
        · intro whole hwhole _
          rw [List.mem_singleton.mp hwhole]
          exact ⟨List.mem_singleton_self _, List.mem_singleton_self _⟩
        · exact ⟨le_rfl, le_rfl⟩
      have hfirst := hhalves.first_part hbroken hvalid hg
      have hsecond := hhalves.second_part hbroken hvalid hg
      obtain ⟨hlt, hget⟩ := List.getElem?_eq_some_iff.mp hmiddle
      rw [if_pos rfl, if_pos rfl, modifyLast_take hmiddle, List.drop_eq_getElem_cons hlt, hget,
        List.map_cons]
      exact ⟨hfirst, hsecond⟩
    | false =>
      have hbroken : Broken scan.good [middle] [] [] := by
        constructor
        · intro entity hentity
          cases hentity
        · intro entity hentity
          cases hentity
        · intro whole hwhole hmono
          rw [List.mem_singleton.mp hwhole, ← hbreak, hcan] at hmono
          cases hmono
        · exact ⟨Nat.zero_le 1, Nat.zero_le 1⟩
      have hfirst := hhalves.first_part hbroken hvalid hg
      have hsecond := hhalves.second_part hbroken hvalid hg
      rw [List.append_nil] at hfirst
      have hnil := hlast hin hcan
      rw [if_pos rfl, if_neg Bool.false_ne_true, hnil]
      rw [hnil] at hsecond
      exact ⟨hfirst, hsecond⟩

/-- What `CutPart` does with a text. -/
theorem cutPart_spec (hshort : e.Short limit) (hpos : 0 < limit) (htext : left.text ≠ []) :
    ∃ sending rest g, cutPart p e left limit = some (sending, rest) ∧
      Start e.reading left.text g ∧ 0 < g ∧ sending.text = left.text.take g ∧
      rest.text = left.text.drop g ∧ codePoints sending.text ≤ limit ∧
      (left.Valid → Shifts e limit left → IsPartOf left 0 g sending ∧
        IsPartOf left g left.text.length rest) := by
  have hplace := @cutScan_start p e left limit hshort hpos
  have hlen := List.length_pos_iff.mpr htext
  rw [cutPart, if_neg (by simp [htext]; omega)]
  generalize cutScan p e left limit 0 0 {} = result at hplace
  cases hplace with
  | whole hle =>
    refine ⟨left, {}, left.text.length, rfl, Start.zero.length, hlen, List.take_length.symm,
      List.drop_length.symm, hle, ?_⟩
    intro hvalid _
    refine ⟨IsPartOf.refl hvalid, ?_⟩
    constructor
    · exact ⟨le_rfl, le_rfl⟩
    · simp
    · constructor
      · intro entity hentity
        cases hentity
      · exact List.Pairwise.nil
    · intro entity hentity
      cases hentity
    · intro whole hwhole _ hmeets
      obtain ⟨i, hle, hlt, -⟩ := hmeets
      omega
  | cut scan hlong hgood hlevel =>
    have hgoodPos : 0 < scan.good := by
      by_contra hzero
      have hhalf := hgood.window.half
      rw [show scan.good = 0 by omega, List.take_zero, codePoints] at hhalf
      omega
    have htake : (cutAt left scan).1.text = left.text.take scan.good := by
      rw [cutAt]
      split_ifs <;> rfl
    have hdrop : (cutAt left scan).2.text = left.text.drop scan.good := by
      rw [cutAt]
      split_ifs <;> rfl
    refine ⟨(cutAt left scan).1, (cutAt left scan).2, scan.good, rfl, hgood.window.start, hgoodPos,
      htake, hdrop, ?_, ?_⟩
    · rw [htake]
      exact hgood.window.le
    · intro hvalid hshifts
      exact cutAt_parts hgood hvalid fun hin hbreak =>
        hgood.drop_eq_nil hvalid hlevel hshifts hlong hin hbreak

/-! ## All cuts -/

theorem ne_nil_of_cutPart (hcut : cutPart p e left limit = some (sending, rest)) :
    left.text ≠ [] := by
  intro hnil
  rw [cutPart, if_pos (by simp [hnil])] at hcut
  cases hcut

theorem exists_cuts (hshort : e.Short limit) (hpos : 0 < limit) (left : TextWithEntities) :
    ∃ parts, Cuts p e limit left parts ∧ ∀ sent, ∃ n,
      Loops.iterate (cutStep p e limit) n (left, sent) = some (sent ++ parts) := by
  induction hn : left.text.length using Nat.strong_induction_on generalizing left with
  | _ n ih =>
    by_cases htext : left.text = []
    · refine ⟨[], .done left htext, ?_⟩
      intro sent
      have hstep : cutStep p e limit (left, sent) = .inl sent := by
        rw [cutStep, cutPart, if_pos (by simp [htext])]
      exact ⟨1, by rw [Loops.iterate_of_done hstep, List.append_nil]⟩
    · obtain ⟨sending, rest, g, hcut, hstart, hg, -, hrest, -⟩ :=
        cutPart_spec (p := p) hshort hpos htext
      have hlen := List.length_pos_iff.mpr htext
      have hless : rest.text.length < n := by
        rw [hrest, List.length_drop]
        omega
      obtain ⟨parts, hparts, hruns⟩ := ih _ hless rest rfl
      refine ⟨sending :: parts, .cut left sending rest parts hcut hparts, ?_⟩
      intro sent
      have hstep : cutStep p e limit (left, sent) = .inr (rest, sent ++ [sending]) := by
        rw [cutStep, hcut]
      obtain ⟨m, hrun⟩ := hruns (sent ++ [sending])
      refine ⟨m + 1, ?_⟩
      rw [Loops.iterate_of_again hstep, hrun, List.append_assoc, List.singleton_append]

theorem Cuts.texts (hshort : e.Short limit) (hpos : 0 < limit) (h : Cuts p e limit left parts) :
    parts.flatMap (·.text) = left.text ∧
      ∀ part ∈ parts, part.text ≠ [] ∧ codePoints part.text ≤ limit := by
  induction h with
  | done left htext =>
    refine ⟨htext.symm, ?_⟩
    intro part hpart
    cases hpart
  | cut left sending rest parts hcut _ ih =>
    have htext := ne_nil_of_cutPart hcut
    obtain ⟨sending', rest', g, hcut', hstart, hg, htake, hdrop, hle, -⟩ :=
      cutPart_spec (p := p) hshort hpos htext
    rw [hcut] at hcut'
    cases hcut'
    constructor
    · rw [List.flatMap_cons, ih.1, htake, hdrop, List.take_append_drop]
    · intro part hpart
      rw [List.mem_cons] at hpart
      cases hpart with
      | inl hsame =>
        subst hsame
        refine ⟨?_, hle⟩
        rw [htake]
        intro hnil
        have hlen := congrArg List.length hnil
        have hpos' := List.length_pos_iff.mpr htext
        rw [List.length_take, List.length_nil] at hlen
        omega
      | inr hrest => exact ih.2 part hrest

theorem place_cons (part : TextWithEntities) (i : Nat) :
    place (·.text) (part :: parts) (i + 1) = part.text.length + place (·.text) parts i := by
  rw [place, place, List.take_succ_cons, List.flatMap_cons, List.length_append]

theorem Cuts.starts (hshort : e.Short limit) (hpos : 0 < limit) (h : Cuts p e limit left parts)
    (hstart : Start e.reading text a) (htext : left.text = text.drop a) {i : Nat}
    (hi : i ≤ parts.length) : Start e.reading text (a + place (·.text) parts i) := by
  induction h generalizing a i with
  | done left _ =>
    rw [Nat.le_zero.mp hi, place_zero]
    exact hstart
  | cut left sending rest parts hcut _ ih =>
    cases i with
    | zero =>
      rw [place_zero]
      exact hstart
    | succ i =>
      have hnil := ne_nil_of_cutPart hcut
      obtain ⟨sending', rest', g, hcut', hg, -, htake, hdrop, -⟩ :=
        cutPart_spec (p := p) hshort hpos hnil
      rw [hcut] at hcut'
      cases hcut'
      have hlength : sending.text.length = g := by
        rw [htake, List.length_take, Nat.min_eq_left hg.le_length]
      rw [place_cons, hlength, ← Nat.add_assoc]
      rw [htext] at hg
      apply ih (hstart.drop hg)
      · rw [hdrop, htext, List.drop_drop]
      · rw [List.length_cons] at hi
        omega

/-- The entities of the parts, when no entity is lost behind one that is dropped. -/
theorem Cuts.isPartOf (hshort : e.Short limit) (hpos : 0 < limit) (h : Cuts p e limit left parts)
    (hleft : IsPartOf t a t.text.length left)
    (hshifts : ∀ l, Reached p e limit left l → Shifts e limit l) {i : Nat}
    (hi : i < parts.length) :
    IsPartOf t (a + place (·.text) parts i) (a + place (·.text) parts (i + 1)) parts[i] := by
  induction h generalizing a i with
  | done left _ => exact absurd hi (Nat.not_lt_zero i)
  | cut left sending rest parts hcut _ ih =>
    have hnil := ne_nil_of_cutPart hcut
    obtain ⟨sending', rest', g, hcut', hg, -, htake, hdrop, -, hcuts⟩ :=
      cutPart_spec (p := p) hshort hpos hnil
    rw [hcut] at hcut'
    cases hcut'
    have hlength : sending.text.length = g := by
      rw [htake, List.length_take, Nat.min_eq_left hg.le_length]
    obtain ⟨hsending, hrest⟩ := hcuts hleft.valid (hshifts left .start)
    cases i with
    | zero =>
      rw [place_cons, place_zero, place_zero, hlength]
      exact hleft.trans hsending
    | succ i =>
      have hrest' := hleft.trans hrest
      have hend : a + left.text.length = t.text.length := by
        have hle := hleft.le
        rw [hleft.text, List.length_take, List.length_drop]
        omega
      rw [hend] at hrest'
      rw [place_cons, place_cons, hlength, ← Nat.add_assoc, ← Nat.add_assoc, List.getElem_cons_succ]
      apply ih hrest'
      intro l hl
      apply hshifts
      clear hi ih hshifts
      induction hl with
      | start => exact .next left sending rest .start hcut
      | next l sending' rest' _ hcut' ih => exact .next l sending' rest' ih hcut'

/-- The loop ends; its parts are the text, not too long and cut between its elements; their
entities cover what the entities of the message covered, unless some step loses entities. -/
theorem cutParts_spec (p : Platform) (hshort : e.Short limit) (hpos : 0 < limit)
    (t : TextWithEntities) :
    ∃ n parts, cutParts p e limit n t = some parts ∧
      parts.flatMap (·.text) = t.text ∧
      (∀ part ∈ parts, part.text ≠ [] ∧ codePoints part.text ≤ limit) ∧
      (∀ i ≤ parts.length, NotInPair t.text (place (·.text) parts i) ∧
        e.NotInEmoji t.text (place (·.text) parts i)) ∧
      (t.Valid → (∀ left, Reached p e limit t left → Shifts e limit left) →
        ∀ (i : Nat) (hi : i < parts.length),
          IsPartOf t (place (·.text) parts i) (place (·.text) parts (i + 1)) parts[i]) := by
  obtain ⟨parts, hcuts, hruns⟩ := exists_cuts (p := p) hshort hpos t
  obtain ⟨n, hrun⟩ := hruns []
  obtain ⟨htext, hparts⟩ := hcuts.texts hshort hpos
  refine ⟨n, parts, hrun, htext, hparts, ?_, ?_⟩
  · intro i hi
    have hstart := hcuts.starts hshort hpos (show Start e.reading t.text 0 from .zero) rfl hi
    rw [Nat.zero_add] at hstart
    exact ⟨notInPair_of_start hstart, notInEmoji_of_start hstart⟩
  · intro hvalid hshifts i hi
    have hpart := hcuts.isPartOf hshort hpos (IsPartOf.refl hvalid) hshifts hi
    rw [Nat.zero_add, Nat.zero_add] at hpart
    exact hpart

/-- Texts without emoji. -/
def noEmoji : EmojiFind where
  find _ := none
  length_pos _ _ h := by cases h
  length_le _ _ h := by cases h
  whole _ _ _ h := by cases h

def asciiPlatform : Platform where
  isSpace ch := ch = 0x20
  isMarkNonSpacing _ := false
  isMac := false
  isElCapitan := false
  isSnowLeopard := false

/-- Two words, the second one of which is bold. -/
def boldWord : TextWithEntities := ⟨[0x61, 0x62, 0x20, 0x63, 0x64], [⟨.bold, 3, 2, []⟩]⟩

theorem boldWord_shifts : ∀ left, Reached asciiPlatform noEmoji 3 boldWord left →
    Shifts noEmoji 3 left := by
  have hstates : ∀ left, Reached asciiPlatform noEmoji 3 boldWord left →
      left = boldWord ∨ left.text.length ≤ 3 := by
    intro left hleft
    induction hleft with
    | start => exact .inl rfl
    | next left sending rest _ hcut ih =>
      right
      cases ih with
      | inl hsame =>
        have hfirst : cutPart asciiPlatform noEmoji boldWord 3 =
            some (⟨[0x61, 0x62], []⟩, ⟨[0x20, 0x63, 0x64], [⟨.bold, 1, 2, []⟩]⟩) := by
          decide +kernel
        rw [hsame, hfirst] at hcut
        cases hcut
        exact le_rfl
      | inr hless =>
        have hnil := ne_nil_of_cutPart hcut
        obtain ⟨sending', rest', g, hcut', -, -, -, hdrop, -⟩ :=
          @cutPart_spec asciiPlatform noEmoji 3 left (by intro text n h; cases h) (by decide) hnil
        rw [hcut] at hcut'
        cases hcut'
        rw [hdrop, List.length_drop]
        omega
  intro left hleft hlong
  cases hstates left hleft with
  | inl hsame =>
    subst hsame
    refine ⟨2, ⟨.next 1 (.next 0 .zero (by decide)) (by decide), by decide, by decide⟩, .inl ?_⟩
    decide
  | inr hshort =>
    have hle := codePoints_le_length left.text
    omega

theorem cutParts_boldWord : ∃ n parts, cutParts asciiPlatform noEmoji 3 n boldWord = some parts ∧
    parts.flatMap (·.text) = boldWord.text ∧ ∀ (i : Nat) (hi : i < parts.length),
      IsPartOf boldWord (place (·.text) parts i) (place (·.text) parts (i + 1)) parts[i] := by
  have hvalid : boldWord.Valid := ⟨by decide, by decide⟩
  obtain ⟨n, parts, hrun, htext, -, -, hparts⟩ :=
    @cutParts_spec noEmoji 3 asciiPlatform (by intro text n h; cases h) (by decide) boldWord
  exact ⟨n, parts, hrun, htext, hparts hvalid boldWord_shifts⟩

/-- A long bold text and an italic word behind it. -/
def longBold : TextWithEntities :=
  ⟨List.replicate 80 0x61, [⟨.bold, 0, 70, []⟩, ⟨.italic, 72, 4, []⟩]⟩

theorem cutParts_longBold :
    ¬ ∀ (p : Platform) (e : EmojiFind) (limit : Nat) (t : TextWithEntities),
      e.Short limit → 0 < limit → t.Valid → ∃ n parts, cutParts p e limit n t = some parts ∧
        ∀ (i : Nat) (hi : i < parts.length),
          IsPartOf t (place (·.text) parts i) (place (·.text) parts (i + 1)) parts[i] := by
  intro h
  obtain ⟨n, parts, hrun, hparts⟩ := h asciiPlatform noEmoji 64 longBold
    (by intro text n h; cases h) (by decide) ⟨by decide, by decide⟩
  have hcomputed : cutParts asciiPlatform noEmoji 64 3 longBold =
      some [⟨List.replicate 64 0x61, []⟩, ⟨List.replicate 16 0x61, [⟨.italic, 72, 4, []⟩]⟩] := by
    decide +kernel
  have hsame := Loops.iterate_unique hrun hcomputed
  subst hsame
  have hinside := (hparts 1 (by decide)).valid.inside ⟨.italic, 72, 4, []⟩ (by decide)
  exact absurd hinside.2.2 (by decide)

end TelegramClient.Text
