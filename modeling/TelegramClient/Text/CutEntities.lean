import TelegramClient.Text.Cutting

/-! The entities of a message that is cut in two. -/

namespace TelegramClient.Text

open Segments

/-- The entity covers what another one covers of a part of the text. -/
def EntityInText.IsPart (a b : Nat) (original entity : EntityInText) : Prop :=
  original.SameKind entity ∧
    ∀ i : Int, entity.Covers i ↔ 0 ≤ i ∧ i < (b : Int) - a ∧ original.Covers (a + i)

/-- A part of a message. Entities that may not be broken are only in it when the part has them
whole. -/
structure IsPartOf (original : TextWithEntities) (a b : Nat) (part : TextWithEntities) : Prop where
  le : a ≤ b ∧ b ≤ original.text.length
  text : part.text = (original.text.drop a).take (b - a)
  valid : part.Valid
  sound : ∀ entity ∈ part.entities, ∃ whole ∈ original.entities, whole.IsPart a b entity
  complete : ∀ whole ∈ original.entities,
    whole.isMonospace ∨ (a : Int) ≤ whole.offset ∧ whole.offset + whole.length ≤ b →
    (∃ i : Int, a ≤ i ∧ i < b ∧ whole.Covers i) →
    ∃ entity ∈ part.entities, whole.IsPart a b entity

variable {original t left part sending : TextWithEntities} {a b c g limit : Nat}
  {whole entity middle : EntityInText} {before behind : List EntityInText} {e : EmojiFind}
  {p : Platform} {scan : CutScan}

/-! ## Parts of parts -/

theorem EntityInText.SameKind.isMonospace (h : whole.SameKind entity) :
    entity.isMonospace = whole.isMonospace := by
  rw [EntityInText.isMonospace, EntityInText.isMonospace, h.1]

theorem EntityInText.IsPart.trans {third : EntityInText} {d : Nat} (hfirst : whole.IsPart a b entity)
    (hsecond : entity.IsPart c d third) (hle : a + d ≤ b) :
    whole.IsPart (a + c) (a + d) third := by
  refine ⟨⟨hfirst.1.1.trans hsecond.1.1, hfirst.1.2.trans hsecond.1.2⟩, ?_⟩
  intro i
  rw [hsecond.2 i, hfirst.2 (c + i)]
  have hsame : (a : Int) + (c + i) = ((a + c : Nat) : Int) + i := by
    push_cast
    ring
  rw [hsame]
  constructor
  · intro hcovers
    obtain ⟨hpos, hlt, -, -, hwhole⟩ := hcovers
    exact ⟨hpos, by omega, hwhole⟩
  · intro hcovers
    obtain ⟨hpos, hlt, hwhole⟩ := hcovers
    exact ⟨hpos, by omega, by omega, by omega, hwhole⟩

/-- An entity that covers something is inside the bounds of the one it is a part of. -/
theorem EntityInText.IsPart.bounds {i : Int} (h : whole.IsPart a b entity)
    (hcovers : entity.Covers i) :
    whole.offset ≤ a + entity.offset ∧
      a + (entity.offset + entity.length) ≤ whole.offset + whole.length := by
  have hfirst := (h.2 entity.offset).mp ⟨le_rfl, by unfold EntityInText.Covers at hcovers; omega⟩
  have hlast := (h.2 (entity.offset + entity.length - 1)).mp
    ⟨by unfold EntityInText.Covers at hcovers; omega, by omega⟩
  have hstart := hfirst.2.2.1
  have hend := hlast.2.2.2
  exact ⟨by omega, by omega⟩

theorem IsPartOf.trans {d : Nat} (hleft : IsPartOf original a original.text.length left)
    (hpart : IsPartOf left c d part) : IsPartOf original (a + c) (a + d) part := by
  have hlength : left.text.length = original.text.length - a := by
    rw [hleft.text, List.length_take, List.length_drop, Nat.min_self]
  have hleftLe := hleft.le
  have hpartLe := hpart.le
  constructor
  · omega
  · have htext : left.text = original.text.drop a := by
      rw [hleft.text, List.take_of_length_le (by rw [List.length_drop])]
    rw [hpart.text, htext, List.drop_drop, Nat.add_sub_add_left]
  · exact hpart.valid
  · intro entity hentity
    obtain ⟨inner, hinner, hisPart⟩ := hpart.sound entity hentity
    obtain ⟨whole, hwhole, hisPart'⟩ := hleft.sound inner hinner
    exact ⟨whole, hwhole, hisPart'.trans hisPart (by omega)⟩
  · intro whole hwhole hbreak hmeets
    obtain ⟨i, hle, hlt, hcovers⟩ := hmeets
    have hbreak' : whole.isMonospace ∨ (a : Int) ≤ whole.offset ∧
        whole.offset + whole.length ≤ original.text.length := by
      cases hbreak with
      | inl hmono => exact .inl hmono
      | inr hinside => exact .inr ⟨by omega, by omega⟩
    obtain ⟨inner, hinner, hisPart⟩ := hleft.complete whole hwhole hbreak'
      ⟨i, by omega, by omega, hcovers⟩
    have hcovers' : inner.Covers (i - a) := by
      rw [hisPart.2]
      refine ⟨by omega, by omega, ?_⟩
      rw [show (a : Int) + (i - a) = i by omega]
      exact hcovers
    have hbreak'' : inner.isMonospace ∨ (c : Int) ≤ inner.offset ∧
        inner.offset + inner.length ≤ d := by
      cases hbreak with
      | inl hmono => exact .inl (hisPart.1.isMonospace ▸ hmono)
      | inr hinside =>
        have hbounds := hisPart.bounds hcovers'
        exact .inr ⟨by omega, by omega⟩
    obtain ⟨entity, hentity, hisPart'⟩ := hpart.complete inner hinner hbreak''
      ⟨i - a, by omega, by omega, hcovers'⟩
    exact ⟨entity, hentity, hisPart.trans hisPart' (by omega)⟩

theorem EntityInText.isPart_self (hinside : 0 ≤ entity.offset)
    (hend : entity.offset + entity.length ≤ b) : entity.IsPart 0 b entity := by
  refine ⟨⟨rfl, rfl⟩, ?_⟩
  intro i
  rw [Int.natCast_zero, Int.zero_add, EntityInText.Covers]
  constructor
  · intro hcovers
    exact ⟨by omega, by omega, hcovers⟩
  · intro hcovers
    exact hcovers.2.2

theorem IsPartOf.refl (h : t.Valid) : IsPartOf t 0 t.text.length t := by
  constructor
  · exact ⟨Nat.zero_le _, le_rfl⟩
  · rw [List.drop_zero, Nat.sub_zero, List.take_length]
  · exact h
  · intro entity hentity
    have hinside := h.inside entity hentity
    exact ⟨entity, hentity, EntityInText.isPart_self hinside.1 hinside.2.2⟩
  · intro whole hwhole _ _
    have hinside := h.inside whole hwhole
    exact ⟨whole, hwhole, EntityInText.isPart_self hinside.1 hinside.2.2⟩

/-! ## The entities at a cut -/

theorem EntityInText.isPart_shiftLeft (h : g ≤ entity.offset)
    (hend : entity.offset + entity.length ≤ b) : entity.IsPart g b (entity.shiftLeft g) := by
  refine ⟨⟨?_, ?_⟩, ?_⟩
  · rw [EntityInText.shiftLeft]
    dsimp only
    split <;> rfl
  · rw [EntityInText.shiftLeft]
    dsimp only
    split <;> rfl
  · intro i
    rw [EntityInText.shiftLeft]
    dsimp only
    rw [if_neg (by omega), EntityInText.Covers, EntityInText.Covers]
    dsimp only
    constructor
    · intro hcovers
      exact ⟨by omega, by omega, by omega, by omega⟩
    · intro hcovers
      exact ⟨by omega, by omega⟩

theorem EntityInText.isAround_iff :
    entity.isAround g = true ↔ entity.offset < g ∧ (g : Int) < entity.offset + entity.length := by
  rw [EntityInText.isAround, Bool.and_eq_true, decide_eq_true_iff, decide_eq_true_iff]

theorem EntityInText.updateTextEnd_of_isAround (h : entity.isAround g = true) :
    entity.updateTextEnd g = { entity with length := g - entity.offset } := by
  rw [isAround_iff] at h
  rw [EntityInText.updateTextEnd, if_neg (by omega), if_pos (by omega)]

theorem EntityInText.shiftLeft_of_isAround (h : entity.isAround g = true) :
    entity.shiftLeft g =
      { entity with offset := 0, length := entity.offset + entity.length - g } := by
  rw [isAround_iff] at h
  rw [EntityInText.shiftLeft]
  dsimp only
  rw [if_pos (by omega), if_neg (by omega)]
  congr 1
  ring

theorem EntityInText.isPart_updateTextEnd (h : entity.isAround g = true) (hpos : 0 ≤ entity.offset) :
    entity.IsPart 0 g (entity.updateTextEnd g) := by
  rw [updateTextEnd_of_isAround h]
  rw [isAround_iff] at h
  refine ⟨⟨rfl, rfl⟩, ?_⟩
  intro i
  rw [EntityInText.Covers, EntityInText.Covers]
  dsimp only
  constructor
  · intro hcovers
    exact ⟨by omega, by omega, by omega, by omega⟩
  · intro hcovers
    exact ⟨by omega, by omega⟩

theorem EntityInText.isPart_shiftLeft_of_isAround (h : entity.isAround g = true)
    (hend : entity.offset + entity.length ≤ b) : entity.IsPart g b (entity.shiftLeft g) := by
  rw [shiftLeft_of_isAround h]
  rw [isAround_iff] at h
  refine ⟨⟨rfl, rfl⟩, ?_⟩
  intro i
  rw [EntityInText.Covers, EntityInText.Covers]
  dsimp only
  constructor
  · intro hcovers
    exact ⟨by omega, by omega, by omega, by omega⟩
  · intro hcovers
    exact ⟨by omega, by omega⟩

/-- The entities in front of the cut and those behind it. -/
structure Halves (t : TextWithEntities) (g : Nat) (before middle behind : List EntityInText) :
    Prop where
  entities : t.entities = before ++ middle ++ behind
  ends : ∀ entity ∈ before, entity.offset + entity.length ≤ g
  around : ∀ entity ∈ middle, entity.isAround g = true
  starts : ∀ entity ∈ behind, (g : Int) ≤ entity.offset

/-- What the halves have of the entities around the cut. -/
structure Broken (g : Nat) (middle first second : List EntityInText) : Prop where
  ofFirst : ∀ entity ∈ first, ∃ whole ∈ middle, entity = whole.updateTextEnd g
  ofSecond : ∀ entity ∈ second, ∃ whole ∈ middle, entity = whole.shiftLeft g
  complete : ∀ whole ∈ middle, whole.isMonospace →
    whole.updateTextEnd g ∈ first ∧ whole.shiftLeft g ∈ second
  single : first.length ≤ 1 ∧ second.length ≤ 1

theorem pairwise_of_length_le_one {α : Type*} {r : α → α → Prop} {l : List α} (h : l.length ≤ 1) :
    l.Pairwise r := by
  rcases l with _ | ⟨x, _ | ⟨y, l⟩⟩
  · exact List.Pairwise.nil
  · exact List.pairwise_singleton r x
  · rw [List.length_cons, List.length_cons] at h
    omega

variable {first second middles : List EntityInText}

theorem Halves.mem (h : Halves t g before middles behind) (entity : EntityInText) :
    entity ∈ t.entities ↔ entity ∈ before ∨ entity ∈ middles ∨ entity ∈ behind := by
  rw [h.entities, List.mem_append, List.mem_append, or_assoc]

theorem Halves.first_part (h : Halves t g before middles behind)
    (hbroken : Broken g middles first second) (hvalid : t.Valid) (hg : g ≤ t.text.length) :
    IsPartOf t 0 g ⟨t.text.take g, before ++ first⟩ := by
  have hsorted := hvalid.sorted
  rw [h.entities, List.append_assoc, List.pairwise_append] at hsorted
  constructor
  · exact ⟨Nat.zero_le g, hg⟩
  · rw [List.drop_zero, Nat.sub_zero]
  · constructor
    · intro entity hentity
      rw [List.length_take, Nat.min_eq_left hg]
      rw [List.mem_append] at hentity
      cases hentity with
      | inl hbefore =>
        have hinside := hvalid.inside entity ((h.mem entity).mpr (.inl hbefore))
        exact ⟨hinside.1, hinside.2.1, h.ends entity hbefore⟩
      | inr hfirst =>
        obtain ⟨whole, hwhole, rfl⟩ := hbroken.ofFirst entity hfirst
        have hinside := hvalid.inside whole ((h.mem whole).mpr (.inr (.inl hwhole)))
        have haround := h.around whole hwhole
        rw [EntityInText.updateTextEnd_of_isAround haround]
        rw [EntityInText.isAround_iff] at haround
        dsimp only
        omega
    · dsimp only
      rw [List.pairwise_append]
      refine ⟨hsorted.1, pairwise_of_length_le_one hbroken.single.1, ?_⟩
      intro entity hbefore other hfirst
      obtain ⟨whole, hwhole, rfl⟩ := hbroken.ofFirst other hfirst
      have hle := hsorted.2.2 entity hbefore whole (List.mem_append_left _ hwhole)
      rw [EntityInText.updateTextEnd_of_isAround (h.around whole hwhole)]
      exact hle
  · intro entity hentity
    dsimp only at hentity
    rw [List.mem_append] at hentity
    cases hentity with
    | inl hbefore =>
      have hmem := (h.mem entity).mpr (.inl hbefore)
      exact ⟨entity, hmem,
        EntityInText.isPart_self (hvalid.inside entity hmem).1 (h.ends entity hbefore)⟩
    | inr hfirst =>
      obtain ⟨whole, hwhole, rfl⟩ := hbroken.ofFirst entity hfirst
      have hmem := (h.mem whole).mpr (.inr (.inl hwhole))
      exact ⟨whole, hmem,
        EntityInText.isPart_updateTextEnd (h.around whole hwhole) (hvalid.inside whole hmem).1⟩
  · intro whole hwhole hbreak hmeets
    obtain ⟨i, -, hlt, hcovers⟩ := hmeets
    have hinside := hvalid.inside whole hwhole
    rcases (h.mem whole).mp hwhole with hbefore | hmiddle | hbehind
    · exact ⟨whole, List.mem_append_left _ hbefore,
        EntityInText.isPart_self hinside.1 (h.ends whole hbefore)⟩
    · have haround := h.around whole hmiddle
      have hmono : whole.isMonospace := by
        cases hbreak with
        | inl hmono => exact hmono
        | inr hends =>
          rw [EntityInText.isAround_iff] at haround
          omega
      exact ⟨whole.updateTextEnd g,
        List.mem_append_right _ (hbroken.complete whole hmiddle hmono).1,
        EntityInText.isPart_updateTextEnd haround hinside.1⟩
    · have hle := h.starts whole hbehind
      unfold EntityInText.Covers at hcovers
      omega

theorem Halves.second_part (h : Halves t g before middles behind)
    (hbroken : Broken g middles first second) (hvalid : t.Valid) (hg : g ≤ t.text.length) :
    IsPartOf t g t.text.length
      ⟨t.text.drop g, second ++ behind.map (·.shiftLeft (g : Int))⟩ := by
  have hsorted := hvalid.sorted
  rw [h.entities, List.append_assoc, List.pairwise_append, List.pairwise_append] at hsorted
  have hshift : ∀ entity ∈ behind,
      entity.shiftLeft g = { entity with offset := entity.offset - g } := by
    intro entity hentity
    have hle := h.starts entity hentity
    rw [EntityInText.shiftLeft]
    exact if_neg (by omega)
  have hmap : ∀ entity ∈ behind.map (·.shiftLeft (g : Int)), ∃ whole ∈ behind,
      entity = whole.shiftLeft g := by
    intro entity hentity
    obtain ⟨whole, hwhole, heq⟩ := List.mem_map.mp hentity
    exact ⟨whole, hwhole, heq.symm⟩
  constructor
  · exact ⟨hg, le_rfl⟩
  · rw [List.take_of_length_le (by rw [List.length_drop])]
  · constructor
    · intro entity hentity
      rw [List.length_drop]
      dsimp only at hentity
      rw [List.mem_append] at hentity
      cases hentity with
      | inl hsecond =>
        obtain ⟨whole, hwhole, rfl⟩ := hbroken.ofSecond entity hsecond
        have hinside := hvalid.inside whole ((h.mem whole).mpr (.inr (.inl hwhole)))
        have haround := h.around whole hwhole
        rw [EntityInText.shiftLeft_of_isAround haround]
        rw [EntityInText.isAround_iff] at haround
        dsimp only
        omega
      | inr hbehind =>
        obtain ⟨whole, hwhole, rfl⟩ := hmap entity hbehind
        have hinside := hvalid.inside whole ((h.mem whole).mpr (.inr (.inr hwhole)))
        have hle := h.starts whole hwhole
        rw [hshift whole hwhole]
        dsimp only
        omega
    · dsimp only
      rw [List.pairwise_append]
      refine ⟨pairwise_of_length_le_one hbroken.single.2, ?_, ?_⟩
      · rw [List.pairwise_map]
        refine hsorted.2.1.2.1.imp_of_mem ?_
        intro entity other hentity hother hle
        rw [hshift entity hentity, hshift other hother]
        dsimp only
        omega
      · intro entity hsecond other hbehind
        obtain ⟨whole, hwhole, rfl⟩ := hbroken.ofSecond entity hsecond
        obtain ⟨whole', hwhole', rfl⟩ := hmap other hbehind
        have hle := hsorted.2.1.2.2 whole hwhole whole' hwhole'
        rw [EntityInText.shiftLeft_of_isAround (h.around whole hwhole), hshift whole' hwhole']
        dsimp only
        omega
  · intro entity hentity
    dsimp only at hentity
    rw [List.mem_append] at hentity
    cases hentity with
    | inl hsecond =>
      obtain ⟨whole, hwhole, rfl⟩ := hbroken.ofSecond entity hsecond
      have hmem := (h.mem whole).mpr (.inr (.inl hwhole))
      exact ⟨whole, hmem, EntityInText.isPart_shiftLeft_of_isAround (h.around whole hwhole)
        (hvalid.inside whole hmem).2.2⟩
    | inr hbehind =>
      obtain ⟨whole, hwhole, rfl⟩ := hmap entity hbehind
      have hmem := (h.mem whole).mpr (.inr (.inr hwhole))
      exact ⟨whole, hmem,
        EntityInText.isPart_shiftLeft (h.starts whole hwhole) (hvalid.inside whole hmem).2.2⟩
  · intro whole hwhole hbreak hmeets
    obtain ⟨i, hle, -, hcovers⟩ := hmeets
    have hinside := hvalid.inside whole hwhole
    rcases (h.mem whole).mp hwhole with hbefore | hmiddle | hbehind
    · have hends := h.ends whole hbefore
      unfold EntityInText.Covers at hcovers
      omega
    · have haround := h.around whole hmiddle
      have hmono : whole.isMonospace := by
        cases hbreak with
        | inl hmono => exact hmono
        | inr hstarts =>
          rw [EntityInText.isAround_iff] at haround
          omega
      exact ⟨whole.shiftLeft g, List.mem_append_left _ (hbroken.complete whole hmiddle hmono).2,
        EntityInText.isPart_shiftLeft_of_isAround haround hinside.2.2⟩
    · exact ⟨whole.shiftLeft g,
        List.mem_append_right _ (List.mem_map.mpr ⟨whole, hbehind, rfl⟩),
        EntityInText.isPart_shiftLeft (h.starts whole hbehind) hinside.2.2⟩

end TelegramClient.Text
