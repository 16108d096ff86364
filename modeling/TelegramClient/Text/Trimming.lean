import TelegramClient.Text.CleanedEntities

/-! `Trim` of `ui/text/text_entity.cpp`, and what it keeps of a cleaned text. -/

namespace TelegramClient.Text

open Rewriting

/-- Where the text ends without the trimmed characters, looked for before `ch`. -/
def rightEnd (p : Platform) (text : List QChar) : Nat → Option Nat
  | 0 => none
  | ch + 1 => if text[ch]?.all p.chIsTrimmed then rightEnd p text ch else some (ch + 1)

/-- Where the text starts without the trimmed characters, looked for in the `n` ones from `ch`. -/
def leftEnd (p : Platform) (text : List QChar) (firstMonospaceOffset : Int) : Nat → Nat → Option Nat
  | 0, _ => none
  | n + 1, ch =>
    if !text[ch]?.all p.chIsTrimmed || ch = firstMonospaceOffset then some ch
    else leftEnd p text firstMonospaceOffset n (ch + 1)

def trimRight (l : Nat) (result : TextWithEntities) : TextWithEntities :=
  if l < result.text.length then
    { text := result.text.take l, entities := result.entities.map (·.updateTextEnd l) }
  else result

def trimLeft (p : Platform) (result : TextWithEntities) : TextWithEntities :=
  let firstMonospaceOffset :=
    EntityInText.firstMonospaceOffset result.entities result.text.length
  match leftEnd p result.text firstMonospaceOffset result.text.length 0 with
  | none => result
  | some l =>
    if 0 < l then
      { text := result.text.drop l, entities := result.entities.map (·.shiftLeft l) }
    else result

def trim (p : Platform) (result : TextWithEntities) : TextWithEntities :=
  match rightEnd p result.text result.text.length with
  | none => {}
  | some l => trimLeft p (trimRight l result)

/-- The entity covers what is left of the other one in the text from `l` to `k`. -/
def CoversRemaining (n l k : Nat) (raw entity : EntityInText) : Prop :=
  raw.SameKind entity ∧
    (∀ i : Int, i + l < k → (entity.Covers i ↔ 0 ≤ i ∧ raw.Covers (i + l))) ∧
    ((∀ i, raw.Covers i → i < n) → ∀ i : Int, entity.Covers i → i + l < k)

/-- The text from `l` to `k` is left. -/
structure Trimmed (p : Platform) (t : TextWithEntities) (l k : Nat) (result : TextWithEntities) :
    Prop where
  text : result.text = (t.text.take k).drop l
  notEmpty : l < k ∧ k ≤ t.text.length
  leading : ∀ c ∈ t.text.take l, p.chIsTrimmed c
  trailing : ∀ c ∈ t.text.drop k, p.chIsTrimmed c
  monospace : ∀ entity ∈ t.entities, entity.isMonospace → l ≤ entity.offset
  first : (∃ c, t.text[l]? = some c ∧ ¬ p.chIsTrimmed c) ∨
    ∃ entity ∈ t.entities, entity.isMonospace ∧ entity.offset = l
  last : ∃ c, t.text[k - 1]? = some c ∧ ¬ p.chIsTrimmed c
  entities : List.Forall₂ (CoversRemaining t.text.length l k) t.entities result.entities

variable {p : Platform} {text : List QChar} {t : TextWithEntities} {entity : EntityInText}
  {entities : List EntityInText} {n ch l k : Nat} {first : Int}

/-! ## The two ends -/

theorem rightEnd_none (h : rightEnd p text n = none) :
    ∀ q < n, text[q]?.all p.chIsTrimmed := by
  induction n with
  | zero =>
    intro q hq
    omega
  | succ n ih =>
    intro q hq
    rw [rightEnd] at h
    split at h
    next htrimmed =>
      by_cases hqn : q = n
      · rwa [hqn]
      · exact ih h q (by omega)
    · cases h

theorem rightEnd_some (h : rightEnd p text n = some k) :
    0 < k ∧ k ≤ n ∧ ¬ text[k - 1]?.all p.chIsTrimmed ∧
      ∀ q, k ≤ q → q < n → text[q]?.all p.chIsTrimmed := by
  induction n with
  | zero => cases h
  | succ n ih =>
    rw [rightEnd] at h
    split at h
    next htrimmed =>
      obtain ⟨hpos, hle, hlast, htrailing⟩ := ih h
      refine ⟨hpos, by omega, hlast, ?_⟩
      intro q hkq hq
      by_cases hqn : q = n
      · rwa [hqn]
      · exact htrailing q hkq (by omega)
    next htrimmed =>
      cases h
      exact ⟨by omega, le_rfl, htrimmed, by omega⟩

theorem leftEnd_some (h : leftEnd p text first n ch = some l) :
    ch ≤ l ∧ l < ch + n ∧ (¬ text[l]?.all p.chIsTrimmed ∨ l = first) ∧
      ∀ q, ch ≤ q → q < l → text[q]?.all p.chIsTrimmed ∧ q ≠ first := by
  induction n generalizing ch with
  | zero => cases h
  | succ n ih =>
    rw [leftEnd] at h
    split at h
    next hfound =>
      cases h
      refine ⟨le_rfl, by omega, ?_, by omega⟩
      simpa using hfound
    next hfound =>
      obtain ⟨hle, hlt, hfirst, hleading⟩ := ih h
      refine ⟨by omega, by omega, hfirst, ?_⟩
      intro q hq hql
      by_cases hch : q = ch
      · subst hch
        simpa using hfound
      · exact hleading q (by omega) hql

theorem leftEnd_none (h : leftEnd p text first n ch = none) :
    ∀ q, ch ≤ q → q < ch + n → text[q]?.all p.chIsTrimmed := by
  induction n generalizing ch with
  | zero =>
    intro q hq hqn
    omega
  | succ n ih =>
    rw [leftEnd] at h
    split at h
    · cases h
    next hfound =>
      intro q hq hqn
      by_cases hch : q = ch
      · subst hch
        simp only [Bool.or_eq_true, not_or, Bool.not_eq_true', Bool.not_eq_false] at hfound
        exact hfound.1
      · exact ih h q (by omega) (by omega)

theorem firstMonospaceOffset_le (hmem : entity ∈ entities) (hmono : entity.isMonospace) :
    EntityInText.firstMonospaceOffset entities n ≤ entity.offset := by
  have hoffset : entity.offset ∈ (entities.filter (·.isMonospace)).map (·.offset) :=
    List.mem_map.mpr ⟨entity, List.mem_filter.mpr ⟨hmem, hmono⟩, rfl⟩
  rw [EntityInText.firstMonospaceOffset]
  cases hmin : ((entities.filter (·.isMonospace)).map (·.offset)).min? with
  | none =>
    rw [List.min?_eq_none_iff] at hmin
    rw [hmin] at hoffset
    cases hoffset
  | some m => exact (List.min?_eq_some_iff.mp hmin).2 _ hoffset

theorem firstMonospaceOffset_cases (entities : List EntityInText) (n : Nat) :
    (∃ entity ∈ entities, entity.isMonospace ∧
      entity.offset = EntityInText.firstMonospaceOffset entities n) ∨
    EntityInText.firstMonospaceOffset entities n = n := by
  rw [EntityInText.firstMonospaceOffset]
  cases hmin : ((entities.filter (·.isMonospace)).map (·.offset)).min? with
  | none => exact .inr rfl
  | some m =>
    obtain ⟨entity, hfilter, hoffset⟩ := List.mem_map.mp (List.min?_eq_some_iff.mp hmin).1
    obtain ⟨hmem, hmono⟩ := List.mem_filter.mp hfilter
    exact .inl ⟨entity, hmem, hmono, hoffset⟩

/-! ## The entities -/

theorem updateTextEnd_covers (entity : EntityInText) (k : Nat) (i : Int) :
    (entity.updateTextEnd k).Covers i ↔ entity.Covers i ∧ i < k := by
  rw [EntityInText.updateTextEnd, EntityInText.Covers]
  split_ifs <;> simp only [EntityInText.Covers] <;> omega

theorem shiftLeft_covers (entity : EntityInText) (l : Nat) (i : Int) :
    (entity.shiftLeft l).Covers i ↔ 0 ≤ i ∧ entity.Covers (i + l) := by
  rw [EntityInText.shiftLeft, EntityInText.Covers]
  dsimp only
  split_ifs <;> simp only [EntityInText.Covers] <;> omega

theorem updateTextEnd_sameKind (entity : EntityInText) (k : Int) :
    entity.SameKind (entity.updateTextEnd k) := by
  rw [EntityInText.updateTextEnd]
  split_ifs <;> exact ⟨rfl, rfl⟩

theorem shiftLeft_sameKind (entity : EntityInText) (l : Int) :
    entity.SameKind (entity.shiftLeft l) := by
  rw [EntityInText.shiftLeft]
  dsimp only
  split_ifs <;> exact ⟨rfl, rfl⟩

theorem updateTextEnd_offset (entity : EntityInText) (k : Int) :
    (entity.updateTextEnd k).offset = min entity.offset k := by
  rw [EntityInText.updateTextEnd]
  split_ifs with hbehind hover
  · show k = min entity.offset k
    omega
  · show entity.offset = min entity.offset k
    omega
  · omega

theorem shiftLeft_offset (entity : EntityInText) (l : Int) :
    (entity.shiftLeft l).offset = max (entity.offset - l) 0 := by
  rw [EntityInText.shiftLeft]
  dsimp only
  split_ifs <;> dsimp only <;> omega

theorem isMonospace_of_sameKind {a b : EntityInText} (h : a.SameKind b) :
    a.isMonospace = b.isMonospace := by
  rw [EntityInText.isMonospace, EntityInText.isMonospace, h.1]

/-- What is left of an entity of a text of `n` characters. -/
def EntityInText.kept (n l k : Nat) (entity : EntityInText) : EntityInText :=
  let ended := if k < n then entity.updateTextEnd k else entity
  if 0 < l then ended.shiftLeft l else ended

theorem kept_coversRemaining (hoffset : 0 ≤ entity.offset) (hk : k ≤ n) :
    CoversRemaining n l k entity (entity.kept n l k) := by
  have hended : ∀ ended : EntityInText, ended = (if k < n then entity.updateTextEnd k else entity) →
      entity.SameKind ended ∧ 0 ≤ ended.offset ∧
        (∀ i : Int, i < k → (ended.Covers i ↔ entity.Covers i)) ∧
        ((∀ i, entity.Covers i → i < n) → ∀ i, ended.Covers i → i < k) := by
    intro ended hended
    split at hended
    · subst hended
      refine ⟨updateTextEnd_sameKind entity k, ?_, ?_, ?_⟩
      · rw [updateTextEnd_offset]
        omega
      · intro i hi
        rw [updateTextEnd_covers, and_iff_left hi]
      · intro _ i hcovers
        exact ((updateTextEnd_covers entity k i).mp hcovers).2
    · subst hended
      refine ⟨⟨rfl, rfl⟩, hoffset, fun _ _ => Iff.rfl, ?_⟩
      intro hinside i hcovers
      have hi := hinside i hcovers
      omega
  obtain ⟨hkind, hnonneg, hcovers, hinside⟩ := hended _ rfl
  rw [EntityInText.kept]
  generalize (if k < n then entity.updateTextEnd k else entity) = ended at *
  split
  · have hkind' := shiftLeft_sameKind ended l
    refine ⟨⟨hkind.1.trans hkind'.1, hkind.2.trans hkind'.2⟩, ?_, ?_⟩
    · intro i hi
      rw [shiftLeft_covers, hcovers (i + l) hi]
    · intro hall i hi
      exact hinside hall (i + l) ((shiftLeft_covers ended l i).mp hi).2
  · obtain rfl : l = 0 := by omega
    refine ⟨hkind, ?_, ?_⟩
    · intro i hi
      have hpos : ended.Covers i → 0 ≤ i := by
        intro hcovered
        exact hnonneg.trans hcovered.1
      rw [Int.ofNat_zero, Int.add_zero] at hi ⊢
      rw [← hcovers i hi]
      exact ⟨fun hcovered => ⟨hpos hcovered, hcovered⟩, And.right⟩
    · intro hall i hi
      have hlt := hinside hall i hi
      omega

theorem trimRight_eq (hk : k ≤ t.text.length) : trimRight k t =
    { text := t.text.take k, entities := t.entities.map (·.kept t.text.length 0 k) } := by
  rw [trimRight]
  split
  next hlt => simp [EntityInText.kept, hlt]
  next hlt =>
    have hfull : t.text.take k = t.text := List.take_of_length_le (by omega)
    simp [EntityInText.kept, hlt, hfull]

theorem trimLeft_eq (h : leftEnd p t.text
    (EntityInText.firstMonospaceOffset t.entities t.text.length) t.text.length 0 = some l) :
    trimLeft p t =
      { text := t.text.drop l, entities := t.entities.map (·.kept 0 l 0) } := by
  rw [trimLeft]
  simp only [h]
  split
  next hlt => simp [EntityInText.kept, hlt]
  next hlt =>
    obtain rfl : l = 0 := by omega
    simp [EntityInText.kept]

/-! ## The text -/

theorem all_iff {o : Option QChar} : ¬ o.all p.chIsTrimmed ↔ ∃ c, o = some c ∧ ¬ p.chIsTrimmed c := by
  cases o <;> simp

theorem trim_of_all (h : rightEnd p t.text t.text.length = none) :
    (∀ c ∈ t.text, p.chIsTrimmed c) ∧ trim p t = {} := by
  constructor
  · intro c hc
    obtain ⟨q, hq, rfl⟩ := List.getElem_of_mem hc
    have htrimmed := rightEnd_none h q hq
    rw [List.getElem?_eq_getElem hq] at htrimmed
    exact htrimmed
  · rw [trim]
    simp only [h]

theorem kept_offset (entity : EntityInText) (n k : Nat) :
    (entity.kept n 0 k).offset = if k < n then min entity.offset k else entity.offset := by
  rw [EntityInText.kept]
  simp only [Nat.lt_irrefl, if_false]
  split
  · rw [updateTextEnd_offset]
  · rfl

theorem kept_isMonospace (entity : EntityInText) (n k : Nat) :
    (entity.kept n 0 k).isMonospace = entity.isMonospace := by
  rw [EntityInText.kept]
  simp only [Nat.lt_irrefl, if_false]
  split
  · exact (isMonospace_of_sameKind (updateTextEnd_sameKind entity k)).symm
  · rfl

theorem kept_kept (entity : EntityInText) (n l k : Nat) :
    (entity.kept n 0 k).kept 0 l 0 = entity.kept n l k := by
  simp [EntityInText.kept]

theorem le_monospace (hoffset : ∀ entity ∈ entities, 0 ≤ entity.offset)
    (h : ∀ q < l, (q : Int) ≠
      EntityInText.firstMonospaceOffset (entities.map (·.kept n 0 k)) k) :
    ∀ entity ∈ entities, entity.isMonospace → l ≤ entity.offset := by
  intro entity hmem hmono
  have hle := firstMonospaceOffset_le (n := k)
    (List.mem_map_of_mem (f := (·.kept n 0 k)) hmem) (by rw [kept_isMonospace, hmono])
  have hnonneg : 0 ≤ EntityInText.firstMonospaceOffset (entities.map (·.kept n 0 k)) k := by
    cases firstMonospaceOffset_cases (entities.map (·.kept n 0 k)) k with
    | inl hsome =>
      obtain ⟨kept, hkept, -, heq⟩ := hsome
      obtain ⟨raw, hraw, rfl⟩ := List.mem_map.mp hkept
      have hraw := hoffset raw hraw
      rw [← heq, kept_offset]
      split <;> omega
    | inr heq => omega
  rw [kept_offset] at hle
  obtain ⟨m, hm⟩ := Int.eq_ofNat_of_zero_le hnonneg
  have hlm : l ≤ m := by
    by_contra hlt
    exact h m (by omega) hm.symm
  split at hle <;> omega

theorem trim_of_some (hoffset : ∀ entity ∈ t.entities, 0 ≤ entity.offset)
    (h : rightEnd p t.text t.text.length = some k) : ∃ l, Trimmed p t l k (trim p t) := by
  obtain ⟨hpos, hk, hlast, htrailing⟩ := rightEnd_some h
  have hright := trimRight_eq hk
  have hlength : (t.text.take k).length = k := by
    rw [List.length_take, Nat.min_eq_left hk]
  have hchar : ∀ q < k, (t.text.take k)[q]? = t.text[q]? :=
    fun q hq => List.getElem?_take_of_lt hq
  obtain ⟨l, hl⟩ : ∃ l, leftEnd p (t.text.take k)
      (EntityInText.firstMonospaceOffset (trimRight k t).entities k) k 0 = some l := by
    by_contra hnone
    rw [not_exists] at hnone
    have hall := leftEnd_none (Option.eq_none_iff_forall_ne_some.mpr hnone) (k - 1)
      (Nat.zero_le _) (by omega)
    rw [hchar (k - 1) (by omega)] at hall
    exact hlast hall
  obtain ⟨-, hlk, hfirst, hleading⟩ := leftEnd_some hl
  have htext : (trimRight k t).text = t.text.take k := by rw [hright]
  have hentities : (trimRight k t).entities = t.entities.map (·.kept t.text.length 0 k) := by
    rw [hright]
  have htrim : trim p t =
      { text := (t.text.take k).drop l, entities := t.entities.map (·.kept t.text.length l k) } := by
    rw [trim]
    simp only [h]
    rw [trimLeft_eq (l := l) (by rw [htext, hlength]; exact hl), htext, hentities, List.map_map]
    simp only [Function.comp_def, kept_kept]
  rw [hentities] at hfirst hleading
  refine ⟨l, ?_⟩
  rw [htrim]
  constructor
  · rfl
  · omega
  · intro c hc
    obtain ⟨q, hq, rfl⟩ := List.getElem_of_mem hc
    rw [List.length_take] at hq
    have htrimmed := (hleading q (Nat.zero_le q) (by omega)).1
    rw [hchar q (by omega), List.getElem?_eq_getElem (by omega)] at htrimmed
    rw [List.getElem_take]
    exact htrimmed
  · intro c hc
    obtain ⟨q, hq, rfl⟩ := List.getElem_of_mem hc
    rw [List.length_drop] at hq
    have htrimmed := htrailing (k + q) (by omega) (by omega)
    rw [List.getElem?_eq_getElem (by omega)] at htrimmed
    rw [List.getElem_drop]
    exact htrimmed
  · exact le_monospace hoffset fun q hq => (hleading q (Nat.zero_le q) hq).2
  · cases hfirst with
    | inl hnot =>
      rw [hchar l (by omega)] at hnot
      exact .inl (all_iff.mp hnot)
    | inr heq =>
      cases firstMonospaceOffset_cases (t.entities.map (·.kept t.text.length 0 k)) k with
      | inl hsome =>
        obtain ⟨kept, hkept, hmono, hkeptOffset⟩ := hsome
        obtain ⟨entity, hmem, rfl⟩ := List.mem_map.mp hkept
        rw [kept_isMonospace] at hmono
        rw [← heq, kept_offset] at hkeptOffset
        refine .inr ⟨entity, hmem, hmono, ?_⟩
        split at hkeptOffset <;> omega
      | inr hnone => omega
  · exact all_iff.mp hlast
  · rw [List.forall₂_map_right_iff, List.forall₂_same]
    intro entity hmem
    exact kept_coversRemaining (hoffset entity hmem) hk

theorem shifted_offset (h : l ≤ entity.offset) :
    (entity.kept 0 l 0).offset = entity.offset - l := by
  rw [EntityInText.kept]
  simp only [Nat.lt_irrefl, if_false]
  split
  · rw [shiftLeft_offset]
    omega
  · omega

theorem shifted_isMonospace (entity : EntityInText) (l : Nat) :
    (entity.kept 0 l 0).isMonospace = entity.isMonospace := by
  rw [EntityInText.kept]
  simp only [Nat.lt_irrefl, if_false]
  split
  · exact (isMonospace_of_sameKind (shiftLeft_sameKind entity l)).symm
  · rfl

theorem firstMonospaceOffset_shifted (m : Nat) (hlt : l < n)
    (h : (l : Int) = EntityInText.firstMonospaceOffset entities n) :
    EntityInText.firstMonospaceOffset (entities.map (·.kept 0 l 0)) m = 0 := by
  have hle : ∀ entity ∈ entities, entity.isMonospace → (l : Int) ≤ entity.offset := by
    intro entity hmem hmono
    rw [h]
    exact firstMonospaceOffset_le hmem hmono
  cases firstMonospaceOffset_cases entities n with
  | inr hnone => omega
  | inl hsome =>
    obtain ⟨entity, hmem, hmono, hoffset⟩ := hsome
    have hmin := firstMonospaceOffset_le (n := m)
      (List.mem_map_of_mem (f := (·.kept 0 l 0)) hmem) (by rw [shifted_isMonospace, hmono])
    rw [shifted_offset (hle entity hmem hmono)] at hmin
    cases firstMonospaceOffset_cases (entities.map (·.kept 0 l 0)) m with
    | inl hshifted =>
      obtain ⟨shifted, hshifted, hmono', heq⟩ := hshifted
      obtain ⟨raw, hraw, rfl⟩ := List.mem_map.mp hshifted
      rw [shifted_isMonospace] at hmono'
      have hraw' := hle raw hraw hmono'
      rw [shifted_offset hraw'] at heq
      omega
    | inr hnone => omega

theorem trimLeft_trimLeft (t : TextWithEntities) :
    trimLeft p (trimLeft p t) = trimLeft p t := by
  cases hl : leftEnd p t.text
      (EntityInText.firstMonospaceOffset t.entities t.text.length) t.text.length 0 with
  | none =>
    have hsame : trimLeft p t = t := by
      rw [trimLeft]
      simp only [hl]
    rw [hsame, hsame]
  | some l =>
    obtain ⟨-, hlt, hfirst, -⟩ := leftEnd_some hl
    rw [Nat.zero_add] at hlt
    rw [trimLeft_eq hl]
    have hkept : ∀ entity : EntityInText, entity.kept 0 0 0 = entity := by
      intro entity
      simp [EntityInText.kept]
    have hagain : leftEnd p (t.text.drop l) (EntityInText.firstMonospaceOffset
        (t.entities.map (·.kept 0 l 0)) (t.text.drop l).length) (t.text.drop l).length 0 =
        some 0 := by
      obtain ⟨n, hn⟩ : ∃ n, (t.text.drop l).length = n + 1 :=
        ⟨t.text.length - l - 1, by rw [List.length_drop]; omega⟩
      rw [hn, leftEnd]
      apply if_pos
      rw [List.getElem?_drop, Nat.add_zero, Bool.or_eq_true]
      by_cases htrimmed : t.text[l]?.all p.chIsTrimmed
      · right
        have heq := hfirst.resolve_left (not_not.mpr htrimmed)
        rw [← hn, firstMonospaceOffset_shifted _ hlt heq]
        rfl
      · left
        simpa using htrimmed
    rw [trimLeft_eq hagain]
    simp [hkept]

theorem trim_trim (hoffset : ∀ entity ∈ t.entities, 0 ≤ entity.offset) :
    trim p (trim p t) = trim p t := by
  cases hk : rightEnd p t.text t.text.length with
  | none =>
    rw [(trim_of_all hk).2]
    rfl
  | some k =>
    obtain ⟨l, htrimmed⟩ := trim_of_some hoffset hk
    have hleft : trim p t = trimLeft p (trimRight k t) := by
      rw [trim]
      simp only [hk]
    have hlength : (trim p t).text.length = k - l := by
      rw [htrimmed.text, List.length_drop, List.length_take, Nat.min_eq_left htrimmed.notEmpty.2]
    obtain ⟨n, hn⟩ : ∃ n, k - l = n + 1 := ⟨k - l - 1, by have := htrimmed.notEmpty; omega⟩
    have hend : rightEnd p (trim p t).text (trim p t).text.length = some (k - l) := by
      rw [hlength, hn, rightEnd]
      apply if_neg
      rw [htrimmed.text, List.getElem?_drop, List.getElem?_take_of_lt (by omega),
        show l + n = k - 1 by omega]
      exact all_iff.mpr htrimmed.last
    have hright : trimRight (k - l) (trim p t) = trim p t := by
      rw [trimRight, hlength]
      exact if_neg (Nat.lt_irrefl _)
    rw [trim]
    simp only [hend]
    rw [hright, hleft, trimLeft_trimLeft]

/-! ## Cleaned texts -/

variable {to_ from_ count : Nat}

theorem moveEntities_nonneg (h : ∀ entity ∈ entities, 0 ≤ entity.offset) :
    ∀ entity ∈ moveEntities to_ from_ count entities, 0 ≤ entity.offset := by
  induction entities with
  | nil => exact h
  | cons entity entities ih =>
    rw [List.forall_mem_cons] at h
    have hmoved := movedEntity_offset to_ from_ count entity
    rw [moveEntities]
    split
    · exact List.forall_mem_cons.mpr h
    · refine List.forall_mem_cons.mpr ⟨?_, ih h.2⟩
      split_ifs at hmoved <;> omega

theorem moveStringPart_nonneg (h : ∀ entity ∈ t.entities, 0 ≤ entity.offset) :
    ∀ entity ∈ (moveStringPart t to_ from_ count).entities, 0 ≤ entity.offset := by
  rw [moveStringPart]
  split_ifs
  · exact h
  · exact moveEntities_nonneg h
  · exact h

theorem replaceTabs_nonneg {i movedTill : Nat} (h : ∀ entity ∈ t.entities, 0 ≤ entity.offset) :
    ∀ entity ∈ (replaceTabs i movedTill to_ t).entities, 0 ≤ entity.offset := by
  induction i generalizing movedTill to_ t with
  | zero => exact h
  | succ i ih =>
    rw [replaceTabs]
    split
    · exact ih (moveStringPart_nonneg h)
    · exact ih h

theorem removeReturns_nonneg (h : ∀ entity ∈ t.entities, 0 ≤ entity.offset) :
    ∀ entity ∈ (removeReturns n ch to_ from_ t).2.2.entities, 0 ≤ entity.offset := by
  induction n generalizing ch to_ from_ t with
  | zero => exact h
  | succ n ih =>
    rw [removeReturns]
    split
    · exact h
    · split_ifs
      · exact ih (moveStringPart_nonneg h)
      · exact ih h
      · exact ih h

theorem applyServerCleaning_nonneg (h : ∀ entity ∈ t.entities, 0 ≤ entity.offset) :
    ∀ entity ∈ (applyServerCleaning t).entities, 0 ≤ entity.offset := by
  have htabs : ∀ entity ∈ (cleanTabs t).entities, 0 ≤ entity.offset := by
    rw [cleanTabs]
    split
    · exact h
    · exact replaceTabs_nonneg h
  rw [applyServerCleaning, cleanReturns]
  have hloop := @removeReturns_nonneg (cleanTabs t) (cleanTabs t).text.length 0 0 0 htabs
  generalize removeReturns (cleanTabs t).text.length 0 0 0 (cleanTabs t) = left at hloop ⊢
  obtain ⟨to_, from_, result⟩ := left
  dsimp only at hloop ⊢
  split
  · exact moveStringPart_nonneg hloop
  · exact moveStringPart_nonneg hloop

theorem bordersFree_of_notMem {c : QChar} (h : c ∉ t.text) : t.BordersFree c := by
  intro entity _ _
  have hnot : ∀ q : Nat, t.text[q]? ≠ some c := by
    intro q hq
    exact h (List.mem_of_getElem? hq)
  exact ⟨hnot _, fun hc => absurd hc (hnot _)⟩

/-- Cleaning replaces the characters as it should, and its entities cover the images of what they
covered if no entity ends with a tab or a return, nor starts with one that is not the first.
Trimming always keeps the entities. -/
theorem cleaned_trimmed_covers (p : Platform) (t : TextWithEntities) (h : t.Valid) :
    (applyServerCleaning t).text = t.text.flatMap cleaned ∧
      (t.BordersFree 0x09 ∧ t.BordersFree 0x0D →
        List.Forall₂ (CoversImages cleaned t.text) t.entities (applyServerCleaning t).entities) ∧
      (0x0D ∉ t.text →
        (List.Forall₂ (CoversImages cleaned t.text) t.entities
          (applyServerCleaning t).entities ↔ t.BordersFree 0x09)) ∧
      (0x09 ∉ t.text →
        (List.Forall₂ (CoversImages cleaned t.text) t.entities
          (applyServerCleaning t).entities ↔ t.BordersFree 0x0D)) ∧
      ∀ u, u = t ∨ u = applyServerCleaning t →
        ((∀ c ∈ u.text, p.chIsTrimmed c) ∧ trim p u = {} ∨ ∃ l k, Trimmed p u l k (trim p u)) ∧
          trim p (trim p u) = trim p u := by
  have hcovers := @applyServerCleaning_coversImages t h
  refine ⟨?_, fun hfree => hcovers hfree.1 hfree.2, ?_, ?_, ?_⟩
  · rw [applyServerCleaning, cleanReturns_text, (cleanTabs_spec h.loose).1, List.flatMap_assoc]
    simp only [flatMap_returned]
  · intro hno
    exact ⟨bordersFree_of_no_returns h hno, fun hfree => hcovers hfree (bordersFree_of_notMem hno)⟩
  · intro hno
    exact ⟨bordersFree_of_no_tabs h hno, fun hfree => hcovers (bordersFree_of_notMem hno) hfree⟩
  · intro u hu
    have hoffset : ∀ entity ∈ u.entities, 0 ≤ entity.offset := by
      have hraw : ∀ entity ∈ t.entities, 0 ≤ entity.offset :=
        fun entity hmem => (h.inside entity hmem).1
      cases hu with
      | inl hsame => rwa [hsame]
      | inr hclean =>
        rw [hclean]
        exact applyServerCleaning_nonneg hraw
    refine ⟨?_, trim_trim hoffset⟩
    cases hk : rightEnd p u.text u.text.length with
    | none => exact .inl (trim_of_all hk)
    | some k =>
      obtain ⟨l, htrimmed⟩ := trim_of_some hoffset hk
      exact .inr ⟨l, k, htrimmed⟩

/-- In `"a\rb"` the first two characters are bold, and so are those of `"ab"` afterwards. -/
theorem cleaned_return_in_bold :
    (⟨[0x61, 0x0D, 0x62], [⟨.bold, 0, 2, []⟩]⟩ : TextWithEntities).Valid ∧
      ¬ List.Forall₂ (CoversImages cleaned [0x61, 0x0D, 0x62]) [⟨.bold, 0, 2, []⟩]
        (applyServerCleaning ⟨[0x61, 0x0D, 0x62], [⟨.bold, 0, 2, []⟩]⟩).entities := by
  constructor
  · constructor
    · simp
    · simp
  · have hclean : (applyServerCleaning ⟨[0x61, 0x0D, 0x62], [⟨.bold, 0, 2, []⟩]⟩).entities =
        [⟨.bold, 0, 2, []⟩] := by decide
    rw [hclean, List.forall₂_cons]
    rintro ⟨⟨-, hcovers⟩, -⟩
    have hone := hcovers 1
    rw [exists_covers_iff (s := 0) (e := 2) rfl rfl] at hone
    have hplace : place cleaned [0x61, 0x0D, 0x62] 2 = 1 := by decide
    rw [hplace] at hone
    simp [EntityInText.Covers] at hone

/-- The tab in the middle of an entity keeps it in place. -/
theorem cleaned_trimmed_covers_tab :
    List.Forall₂ (CoversImages cleaned [0x61, 0x09, 0x62]) [⟨.bold, 0, 3, []⟩]
      (applyServerCleaning ⟨[0x61, 0x09, 0x62], [⟨.bold, 0, 3, []⟩]⟩).entities := by
  have hvalid : (⟨[0x61, 0x09, 0x62], [⟨.bold, 0, 3, []⟩]⟩ : TextWithEntities).Valid := by
    constructor
    · simp
    · simp
  have hall := cleaned_trimmed_covers ⟨fun c => c = 0x20, fun _ => false, false, false, false⟩
    ⟨[0x61, 0x09, 0x62], [⟨.bold, 0, 3, []⟩]⟩ hvalid
  apply hall.2.1
  constructor
  · intro entity hmem _
    obtain rfl := List.mem_singleton.mp hmem
    simp
  · intro entity hmem _
    obtain rfl := List.mem_singleton.mp hmem
    simp

end TelegramClient.Text
