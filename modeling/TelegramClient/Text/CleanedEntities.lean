import TelegramClient.Text.CleaningLoops

/-! Which entities of a cleaned text cover the images of their characters. -/

namespace TelegramClient.Text

open Rewriting

/-- The entity covers what the characters of another one were replaced by. -/
def CoversImages (f : QChar → List QChar) (T : List QChar) (raw entity : EntityInText) : Prop :=
  raw.SameKind entity ∧ ∀ i : Int, entity.Covers i ↔
    ∃ q : Nat, raw.Covers q ∧ (place f T q : Int) ≤ i ∧ i < (place f T (q + 1) : Int)

/-- No entity ends with the character, and one that starts with it has none before it. -/
def TextWithEntities.BordersFree (t : TextWithEntities) (c : QChar) : Prop :=
  ∀ entity ∈ t.entities, 0 < entity.length →
    t.text[(entity.offset + entity.length - 1).toNat]? ≠ some c ∧
      (t.text[entity.offset.toNat]? = some c → c ∉ t.text.take entity.offset.toNat)

variable {f : QChar → List QChar} {c : QChar} {T : List QChar} {s e : Nat}
  {raw entity : EntityInText} {t : TextWithEntities}

theorem exists_covers_iff (hs : raw.offset = s) (he : raw.offset + raw.length = e) (i : Int) :
    (∃ q : Nat, raw.Covers q ∧ (place f T q : Int) ≤ i ∧ i < (place f T (q + 1) : Int)) ↔
      (place f T s : Int) ≤ i ∧ i < place f T e := by
  by_cases hi : 0 ≤ i
  · obtain ⟨n, rfl⟩ := Int.eq_ofNat_of_zero_le hi
    have hiff := @exists_place_iff _ _ f T s e n
    simp only [EntityInText.Covers, hs, show (s : Int) + raw.length = e by omega]
    constructor
    · rintro ⟨q, ⟨hsq, hqe⟩, hle, hlt⟩
      have hplaces := hiff.mp ⟨q, by omega, by omega, by omega, by omega⟩
      omega
    · intro hplaces
      obtain ⟨q, hsq, hqe, hle, hlt⟩ := hiff.mpr (by omega)
      exact ⟨q, ⟨by omega, by omega⟩, by omega, by omega⟩
  · constructor
    · rintro ⟨q, -, hle, -⟩
      omega
    · rintro ⟨hle, -⟩
      omega

/-- What a loop did to an entity. -/
structure Cleaned (f : QChar → List QChar) (c : QChar) (T : List QChar) (s e : Nat)
    (entity : EntityInText) : Prop where
  empty : s = e → entity.length = 0
  start : s < e → entity.offset = startPlace f c T s
  finish : s < e → entity.offset + entity.length = endPlace f c T e

theorem MovedRight.cleaned (h : MovedRight f c T 0 s e entity) : Cleaned f c T s e entity where
  empty := h.empty
  start := fun hse => h.start hse (Nat.zero_le s)
  finish := by
    intro hse
    rw [h.finish hse, if_neg (by omega)]

theorem MovedLeft.cleaned (h : MovedLeft f c T T.length s e entity) (he : e ≤ T.length) :
    Cleaned f c T s e entity where
  empty := h.empty
  start := fun hse => h.start hse (by omega)
  finish := by
    intro hse
    rw [h.finish hse, if_neg (by omega)]

theorem Cleaned.places (h : Cleaned f c T s e entity) (hse : s < e)
    (hend : T[e - 1]? ≠ some c) (hstart : T[s]? = some c → place f T s = s) :
    entity.offset = place f T s ∧ entity.offset + entity.length = place f T e := by
  rw [h.finish hse, h.start hse, startPlace, endPlace, if_neg hend]
  by_cases hc : T[s]? = some c
  · rw [if_pos hc, hstart hc]
    exact ⟨rfl, rfl⟩
  · rw [if_neg hc]
    exact ⟨rfl, rfl⟩

theorem replaced_of_place_eq (hnil : ∀ a, f a = [] → a = c) (hse : s < e) (he : e ≤ T.length)
    (hplace : place f T s = place f T e) : T[s]? = some c ∧ T[e - 1]? = some c := by
  have hchar : ∀ q, q < T.length → place f T q = place f T (q + 1) → T[q]? = some c := by
    intro q hq heq
    rw [place_add_one (List.getElem?_eq_getElem hq)] at heq
    have hempty : f T[q] = [] := List.length_eq_zero_iff.mp (by omega)
    rw [List.getElem?_eq_getElem hq, hnil _ hempty]
  have hfirst : place f T s ≤ place f T (s + 1) := place_mono (by omega)
  have hrest : place f T (s + 1) ≤ place f T e := place_mono hse
  have hmost : place f T s ≤ place f T (e - 1) := place_mono (by omega)
  have hlast : place f T (e - 1) ≤ place f T e := place_mono (by omega)
  constructor
  · exact hchar s (by omega) (by omega)
  · apply hchar (e - 1) (by omega)
    rw [show e - 1 + 1 = e by omega]
    omega

/-- An entity is right exactly if it does not end with a character that is replaced, nor starts
with one that is not the first. -/
theorem Cleaned.covers_iff (h : Cleaned f c T s e entity) (hse : s ≤ e) (he : e ≤ T.length)
    (hplace : ∀ q ≤ T.length, place f T q = q ↔ c ∉ T.take q)
    (hnil : ∀ a, f a = [] → a = c) :
    (∀ i : Int, entity.Covers i ↔ (place f T s : Int) ≤ i ∧ i < place f T e) ↔
      (s < e → T[e - 1]? ≠ some c ∧ (T[s]? = some c → c ∉ T.take s)) := by
  by_cases hlt : s < e
  · constructor
    · intro hcovers _
      have hstart := h.start hlt
      have hfinish := h.finish hlt
      simp only [EntityInText.Covers, hfinish] at hcovers
      simp only [hstart] at hcovers
      have hmono : place f T s ≤ place f T e := place_mono hse
      by_cases hsame : place f T s = place f T e
      · obtain ⟨hfirst, hlast⟩ := replaced_of_place_eq hnil hlt he hsame
        have hcover := hcovers s
        rw [startPlace, if_pos hfirst, endPlace, if_pos hlast] at hcover
        omega
      · have hfirst := hcovers (place f T s)
        have hlast := hcovers (place f T e - 1)
        have hbehind := hcovers (place f T e)
        have hbefore := hcovers (startPlace f c T s)
        have hstartEq : startPlace f c T s = place f T s := by omega
        have hendEq : endPlace f c T e = place f T e := by omega
        constructor
        · intro hc
          rw [endPlace, if_pos hc] at hendEq
          have hmem : (T.take e)[e - 1]? = some c := by
            rw [List.getElem?_take_of_lt (by omega)]
            exact hc
          exact (hplace e he).mp hendEq.symm (List.mem_of_getElem? hmem)
        · intro hc
          rw [startPlace, if_pos hc] at hstartEq
          exact (hplace s (by omega)).mp hstartEq.symm
    · intro hfree i
      obtain ⟨hend, hstart⟩ := hfree hlt
      obtain ⟨hoffset, hfinish⟩ :=
        h.places hlt hend fun hc => (hplace s (by omega)).mpr (hstart hc)
      rw [EntityInText.Covers, hfinish, hoffset]
  · obtain rfl : s = e := by omega
    have hlength := h.empty rfl
    refine iff_of_true ?_ (fun hss => absurd hss hlt)
    intro i
    rw [EntityInText.Covers]
    omega

/-! ## The two loops -/

theorem place_tabbed_eq_iff (q : Nat) (hq : q ≤ T.length) :
    place tabbed T q = q ↔ 0x09 ∉ T.take q := by
  rw [place, length_flatMap_tabbed, List.length_take, Nat.min_eq_left hq, ← List.count_eq_zero]
  omega

theorem length_flatMap_returned_add (Q : List QChar) :
    (Q.flatMap returned).length + Q.count 0x0D = Q.length := by
  induction Q with
  | nil => rfl
  | cons a Q ih =>
    by_cases ha : a = 0x0D
    · subst ha
      have hempty : returned 0x0D = [] := rfl
      rw [List.flatMap_cons, hempty, List.nil_append, List.count_cons_self, List.length_cons]
      omega
    · rw [List.flatMap_cons, List.length_append, returned_length ha, List.count_cons_of_ne ha,
        List.length_cons]
      omega

theorem place_returned_eq_iff (q : Nat) (hq : q ≤ T.length) :
    place returned T q = q ↔ 0x0D ∉ T.take q := by
  have hlength := length_flatMap_returned_add (T.take q)
  rw [List.length_take, Nat.min_eq_left hq] at hlength
  rw [place, ← List.count_eq_zero]
  omega

theorem tabbed_nil (a : QChar) (h : tabbed a = []) : a = 0x09 := by
  rw [tabbed] at h
  split_ifs at h

theorem returned_nil (a : QChar) (h : returned a = []) : a = 0x0D := by
  by_contra ha
  have hlength := returned_length ha
  rw [h] at hlength
  cases hlength

theorem coversImages_iff {entities : List EntityInText}
    (h : List.Forall₂ (Track (Cleaned f c t.text) t.text.length) t.entities entities)
    (hplace : ∀ q ≤ t.text.length, place f t.text q = q ↔ c ∉ t.text.take q)
    (hnil : ∀ a, f a = [] → a = c) :
    List.Forall₂ (CoversImages f t.text) t.entities entities ↔ t.BordersFree c := by
  have hone : ∀ raw entity, Track (Cleaned f c t.text) t.text.length raw entity →
      (CoversImages f t.text raw entity ↔ (0 < raw.length →
        t.text[(raw.offset + raw.length - 1).toNat]? ≠ some c ∧
          (t.text[raw.offset.toNat]? = some c → c ∉ t.text.take raw.offset.toNat))) := by
    rintro raw entity ⟨hkind, s, e, hs, he, hse, hle, hcleaned⟩
    have hiff := hcleaned.covers_iff hse hle hplace hnil
    have hlt : 0 < raw.length ↔ s < e := by omega
    rw [CoversImages, and_iff_right hkind]
    simp only [exists_covers_iff hs he]
    rw [hiff, hlt, he, hs, show ((e : Int) - 1).toNat = e - 1 by omega, Int.toNat_natCast]
  rw [TextWithEntities.BordersFree]
  generalize t.entities = raws at h ⊢
  induction h with
  | nil => simp
  | @cons raw entity raws entities htrack hrest ih =>
    rw [List.forall₂_cons, List.forall_mem_cons]
    exact and_congr (hone raw entity htrack) ih

/-! ## Both loops -/

/-- The place of an entity between the loops. -/
def Between (T : List QChar) (s e : Nat) (entity : EntityInText) : Prop :=
  (s < e → entity.offset = place tabbed T s ∧ entity.offset + entity.length = place tabbed T e) ∧
    (s = e → entity.length = 0 ∧ 0 ≤ entity.offset ∧ entity.offset ≤ place tabbed T s)

theorem cleanTabs_between (h : t.Loose) (hfree : t.BordersFree 0x09) :
    List.Forall₂ (Track (Between t.text) t.text.length) t.entities (cleanTabs t).entities := by
  have hmoved := (cleanTabs_spec h).2
  rw [TextWithEntities.BordersFree] at hfree
  generalize t.entities = raws at hfree hmoved
  generalize (cleanTabs t).entities = entities at hmoved ⊢
  induction hmoved with
  | nil => exact .nil
  | @cons raw entity raws entities htrack hrest ih =>
    rw [List.forall_mem_cons] at hfree
    refine .cons ?_ (ih hfree.2)
    obtain ⟨hkind, s, e, hs, he, hse, hle, hmoved⟩ := htrack
    refine ⟨hkind, s, e, hs, he, hse, hle, ?_, ?_⟩
    · intro hlt
      obtain ⟨hend, hstart⟩ := hfree.1 (by omega)
      rw [he, show ((e : Int) - 1).toNat = e - 1 by omega] at hend
      rw [hs, Int.toNat_natCast] at hstart
      exact hmoved.cleaned.places hlt hend fun hc =>
        (place_tabbed_eq_iff s (by omega)).mpr (hstart hc)
    · intro heq
      have hrange := hmoved.moved (Nat.zero_le s)
      exact ⟨hmoved.empty heq, by omega, hrange.2⟩

theorem pairwise_of_forall₂ {α β : Type*} {R : α → β → Prop} {P : α → α → Prop}
    {Q : β → β → Prop} {as : List α} {bs : List β} (h : List.Forall₂ R as bs)
    (hstep : ∀ a b a' b', R a a' → R b b' → P a b → Q a' b') (hP : as.Pairwise P) :
    bs.Pairwise Q := by
  induction h with
  | nil => exact .nil
  | @cons a a' as bs hR hrest ih =>
    rw [List.pairwise_cons] at hP ⊢
    refine ⟨?_, ih hP.2⟩
    intro b' hb'
    obtain ⟨i, hi, rfl⟩ := List.getElem_of_mem hb'
    have hi' : i < as.length := by rw [hrest.length_eq]; exact hi
    exact hstep a as[i] a' bs[i] hR (hrest.get hi' hi) (hP.1 _ (List.getElem_mem hi'))

theorem forall_mem_of_forall₂ {α β : Type*} {R : α → β → Prop} {P : β → Prop} {as : List α}
    {bs : List β} (h : List.Forall₂ R as bs) (hP : ∀ a b, a ∈ as → R a b → P b) :
    ∀ b ∈ bs, P b := by
  intro b hb
  obtain ⟨i, hi, rfl⟩ := List.getElem_of_mem hb
  have hi' : i < as.length := by rw [h.length_eq]; exact hi
  exact hP as[i] bs[i] (List.getElem_mem hi') (h.get hi' hi)

theorem cleanTabs_loose (h : t.Valid) (hfree : t.BordersFree 0x09) : (cleanTabs t).Loose := by
  have hbetween := cleanTabs_between h.loose hfree
  have hlength : (cleanTabs t).text.length = place tabbed t.text t.text.length := by
    rw [(cleanTabs_spec h.loose).1, place_length]
  constructor
  · refine forall_mem_of_forall₂ hbetween ?_
    rintro raw entity - ⟨-, s, e, -, -, hse, hle, hnonempty, hempty⟩
    have hmono : place tabbed t.text s ≤ place tabbed t.text e := place_mono hse
    have hall : place tabbed t.text e ≤ place tabbed t.text t.text.length := place_mono hle
    rw [hlength]
    by_cases hlt : s < e
    · obtain ⟨hoffset, hend⟩ := hnonempty hlt
      omega
    · obtain ⟨hzero, hoffset, hplace⟩ := hempty (by omega)
      omega
  · apply pairwise_of_forall₂ hbetween _ h.sorted
    rintro a b a' b' ⟨-, s, e, hs, he, hse, -, hnonempty, hempty⟩
      ⟨-, s', e', hs', -, hse', -, hnonempty', hempty'⟩ hle hlength'
    have hmono : place tabbed t.text s ≤ place tabbed t.text s' := place_mono (by omega)
    have hlt' : s' < e' := by
      by_contra hnot
      have hzero := (hempty' (by omega)).1
      omega
    have hoffset' := (hnonempty' hlt').1
    by_cases hlt : s < e
    · have hoffset := (hnonempty hlt).1
      omega
    · have hoffset := (hempty (by omega)).2.2
      omega

theorem tabbed_length_pos (a : QChar) : 0 < (tabbed a).length := by
  rw [tabbed]
  split_ifs <;> simp

theorem mem_of_mem_tabbed {Q : List QChar} (h : 0x0D ∈ Q.flatMap tabbed) : 0x0D ∈ Q := by
  rw [List.mem_flatMap] at h
  obtain ⟨a, ha, hmem⟩ := h
  rw [tabbed] at hmem
  split_ifs at hmem
  · simp at hmem
  · rw [List.mem_singleton] at hmem
    rwa [hmem]

/-- The first loop keeps the borders free of the characters of the second one. -/
theorem cleanTabs_bordersFree (h : t.Loose) (hfree : t.BordersFree 0x09)
    (hfree' : t.BordersFree 0x0D) : (cleanTabs t).BordersFree 0x0D := by
  refine forall_mem_of_forall₂ (cleanTabs_between h hfree) ?_
  rintro raw entity hraw ⟨-, s, e, hs, he, hse, hle, hnonempty, hempty⟩ hlength
  have hlt : s < e := by
    by_contra hnot
    have hzero := (hempty (by omega)).1
    omega
  obtain ⟨hoffset, hend⟩ := hnonempty hlt
  obtain ⟨hlast, hfirst⟩ := hfree' raw hraw (by omega)
  rw [he, show ((e : Int) - 1).toNat = e - 1 by omega] at hlast
  rw [hs, Int.toNat_natCast] at hfirst
  have htext := (cleanTabs_spec h).1
  have himage : ∀ (q : Nat) (a : QChar), t.text[q]? = some a → ∀ k < (tabbed a).length,
      (cleanTabs t).text[place tabbed t.text q + k]? = some 0x0D → t.text[q]? = some 0x0D := by
    intro q a ha k hk hc
    rw [htext, getElem?_flatMap ha hk] at hc
    have hmem : (0x0D : QChar) ∈ [a].flatMap tabbed := by
      simpa using List.mem_of_getElem? hc
    rw [ha, List.mem_singleton.mp (mem_of_mem_tabbed hmem)]
  constructor
  · intro hc
    have hchar : t.text[e - 1]? = some t.text[e - 1] := List.getElem?_eq_getElem (by omega)
    have hplace : place tabbed t.text (e - 1 + 1) = _ := place_add_one hchar
    have hpos := tabbed_length_pos t.text[e - 1]
    rw [show e - 1 + 1 = e by omega] at hplace
    apply hlast
    apply himage (e - 1) _ hchar ((tabbed t.text[e - 1]).length - 1) (by omega)
    rw [hend, show ((place tabbed t.text e : Int) - 1).toNat = place tabbed t.text (e - 1) +
      ((tabbed t.text[e - 1]).length - 1) by omega] at hc
    exact hc
  · intro hc
    have hchar : t.text[s]? = some t.text[s] := List.getElem?_eq_getElem (by omega)
    rw [hoffset, Int.toNat_natCast] at hc ⊢
    have hnot := hfirst (himage s _ hchar 0 (tabbed_length_pos _) hc)
    rw [htext, take_flatMap]
    intro hmem
    exact hnot (mem_of_mem_tabbed hmem)

/-- Entities of which no border is at a character that is replaced are right. -/
theorem applyServerCleaning_coversImages (h : t.Valid) (hfree : t.BordersFree 0x09)
    (hfree' : t.BordersFree 0x0D) :
    List.Forall₂ (CoversImages cleaned t.text) t.entities (applyServerCleaning t).entities := by
  have hbetween := cleanTabs_between h.loose hfree
  have hloose := cleanTabs_loose h hfree
  have hmoved : List.Forall₂ (Track (Cleaned returned 0x0D (cleanTabs t).text)
      (cleanTabs t).text.length) (cleanTabs t).entities (applyServerCleaning t).entities :=
    (cleanReturns_entities hloose).imp fun raw entity htrack =>
      htrack.imp fun s e he hmoved => hmoved.cleaned he
  have himages := (coversImages_iff hmoved place_returned_eq_iff returned_nil).mpr
    (cleanTabs_bordersFree h.loose hfree hfree')
  rw [(cleanTabs_spec h.loose).1] at himages
  generalize (cleanTabs t).entities = mids at hbetween himages
  generalize (applyServerCleaning t).entities = entities at himages
  generalize t.entities = raws at hbetween
  induction hbetween generalizing entities with
  | nil =>
    cases himages
    exact .nil
  | @cons raw mid raws mids htrack hrest ih =>
    obtain ⟨entity, entities, himage, hothers, rfl⟩ := List.forall₂_cons_left_iff.mp himages
    refine .cons ?_ (ih entities hothers)
    obtain ⟨⟨htype, hdata⟩, s, e, hs, he, hse, -, hnonempty, hempty⟩ := htrack
    obtain ⟨⟨htype', hdata'⟩, hcovers⟩ := himage
    refine ⟨⟨htype.trans htype', hdata.trans hdata'⟩, ?_⟩
    intro i
    rw [hcovers i, exists_covers_iff hs he]
    by_cases hlt : s < e
    · obtain ⟨hoffset, hend⟩ := hnonempty hlt
      rw [exists_covers_iff hoffset hend, place_place, place_place]
      simp only [flatMap_returned]
    · obtain rfl : s = e := by omega
      have hzero := (hempty rfl).1
      constructor
      · rintro ⟨q, ⟨hle, hltq⟩, -⟩
        omega
      · omega

/-! ## Texts with one of the characters only -/

theorem removeReturns_of_notMem {n ch : Nat} {result : TextWithEntities}
    (h : 0x0D ∉ result.text) : ∃ result', removeReturns n ch 0 0 result = (0, 0, result') ∧
      result'.entities = result.entities := by
  induction n generalizing ch result with
  | zero => exact ⟨result, rfl, rfl⟩
  | succ n ih =>
    rw [removeReturns]
    by_cases hch : ch < result.text.length
    · have hchar : result.text[ch]? = some result.text[ch] := List.getElem?_eq_getElem hch
      have hne : result.text[ch] ≠ 0x0D := by
        intro heq
        exact h (heq ▸ List.getElem_mem hch)
      rw [hchar]
      dsimp only
      rw [if_neg hne]
      split
      · apply ih
        intro hmem
        cases List.mem_or_eq_of_mem_set hmem with
        | inl hold => exact h hold
        | inr hspace => cases hspace
      · exact ih h
    · rw [List.getElem?_eq_none (by omega)]
      exact ⟨result, rfl, rfl⟩

theorem cleanReturns_entities_of_notMem (h : 0x0D ∉ t.text) :
    (cleanReturns t).entities = t.entities := by
  obtain ⟨result, hrun, hentities⟩ := @removeReturns_of_notMem t.text.length 0 t h
  have hmove : ∀ count, moveStringPart result 0 0 count = result := by
    intro count
    rw [moveStringPart]
    split <;> rfl
  rw [cleanReturns]
  simp only [hrun, hmove]
  split <;> exact hentities

theorem place_cleaned_eq (T : List QChar) (q : Nat) :
    place cleaned T q = place returned (T.flatMap tabbed) (place tabbed T q) := by
  rw [place_place]
  simp only [flatMap_returned]

theorem bordersFree_of_no_returns (h : t.Valid) (hno : 0x0D ∉ t.text)
    (hcovers : List.Forall₂ (CoversImages cleaned t.text) t.entities
      (applyServerCleaning t).entities) : t.BordersFree 0x09 := by
  obtain ⟨htext, hmoved⟩ := cleanTabs_spec h.loose
  have hno' : 0x0D ∉ (cleanTabs t).text := by
    rw [htext]
    intro hmem
    exact hno (mem_of_mem_tabbed hmem)
  have hplaces : place cleaned t.text = place tabbed t.text := by
    funext q
    rw [place_cleaned_eq, ← htext]
    by_cases hq : place tabbed t.text q ≤ (cleanTabs t).text.length
    · rw [place_returned_eq_iff _ hq]
      intro hmem
      exact hno' (List.mem_of_mem_take hmem)
    · exfalso
      apply hq
      rw [htext, ← place_length, place_min]
      exact place_mono (by omega)
  apply (coversImages_iff (hmoved.imp fun raw entity htrack =>
    htrack.imp fun s e _ hmoved => hmoved.cleaned) place_tabbed_eq_iff tabbed_nil).mp
  rw [applyServerCleaning, cleanReturns_entities_of_notMem hno'] at hcovers
  refine hcovers.imp ?_
  intro raw entity himages
  rwa [CoversImages, hplaces] at himages

theorem bordersFree_of_no_tabs (h : t.Valid) (hno : 0x09 ∉ t.text)
    (hcovers : List.Forall₂ (CoversImages cleaned t.text) t.entities
      (applyServerCleaning t).entities) : t.BordersFree 0x0D := by
  have hsame : cleanTabs t = t := by
    rw [cleanTabs]
    exact if_pos (List.count_eq_zero.mpr hno)
  have hplaces : place cleaned t.text = place returned t.text := by
    funext q
    have htake : 0x09 ∉ t.text.take q := fun hmem => hno (List.mem_of_mem_take hmem)
    have hq : place tabbed t.text q = min q t.text.length := by
      rw [place, flatMap_tabbed htake, List.length_take]
    rw [place_cleaned_eq, flatMap_tabbed hno, hq, ← place_min]
  apply (coversImages_iff ((cleanReturns_entities h.loose).imp fun raw entity htrack =>
    htrack.imp fun s e he hmoved => hmoved.cleaned he) place_returned_eq_iff returned_nil).mp
  rw [applyServerCleaning, hsame] at hcovers
  refine hcovers.imp ?_
  intro raw entity himages
  rwa [CoversImages, hplaces] at himages

end TelegramClient.Text
