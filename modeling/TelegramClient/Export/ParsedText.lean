import TelegramClient.Export.ParseText

/-! The parts of a message text reproduce it, if and only if bytes and units are not taken for one
another and no sum overflows. -/

namespace TelegramClient.Export

/-- The entity lies in a text of so many units, behind a position. -/
def MessageEntity.IsInside (units position : Nat) (entity : MessageEntity) : Prop :=
  position ≤ entity.offset.toInt ∧ 0 < entity.length.toInt ∧
    entity.offset.toInt + entity.length.toInt ≤ units

instance (units position : Nat) (entity : MessageEntity) :
    Decidable (entity.IsInside units position) := inferInstanceAs (Decidable (_ ∧ _ ∧ _))

def plain (text : List Char) : List TextPart :=
  if text = [] then [] else [{ text := Utf8.encode text }]

def MessageEntity.part (entity : MessageEntity) (text : List Char) : TextPart :=
  { type := entity.type.partType, text := Utf8.encode text, additional := entity.type.additional }

/-- The parts of the text from a position on: each entity that lies in it is one, all others are
ignored. -/
def expected (units : Nat) : Nat → List Char → List MessageEntity → List TextPart
  | _, text, [] => plain text
  | position, text, entity :: entities =>
    if entity.IsInside units position then
      let start := entity.offset.toInt.toNat
      let length := entity.length.toInt.toNat
      let rest := Utf16.dropUnits (start - position) text
      plain (Utf16.takeUnits (start - position) text) ++
        entity.part (Utf16.takeUnits length rest) ::
          expected units (start + length) (Utf16.dropUnits length rest) entities
    else expected units position text entities

/-- The parts are not empty, they are the text together, and each is what it should be. -/
structure Reproduces (text : List Char) (entities : List MessageEntity) (parts : List TextPart) :
    Prop where
  ne_nil : ∀ part ∈ parts, part.text ≠ []
  concat : parts.flatMap TextPart.text = Utf8.encode text
  parts_eq : parts = expected (Utf16.encode text).length 0 text entities

/-- The offset is not negative, and neither end is in a surrogate pair. -/
structure MessageEntity.IsWhole (text : List Char) (entity : MessageEntity) : Prop where
  offset_nonneg : 0 ≤ entity.offset.toInt
  starts : entity.offset.toInt ≤ (Utf16.encode text).length →
    Utf16.IsBoundary text entity.offset.toInt.toNat
  ends : 0 < entity.length.toInt →
    entity.offset.toInt + entity.length.toInt ≤ (Utf16.encode text).length →
      Utf16.IsBoundary text (entity.offset.toInt + entity.length.toInt).toNat

/-- The entity ends with the bytes, nothing is taken behind it, and among the entities behind it
the first that lies in the text is its like. -/
structure IsTwin (size units position : Nat) (entity : MessageEntity)
    (entities : List MessageEntity) : Prop where
  ends : entity.offset.toInt + entity.length.toInt = size
  last : ∀ other ∈ entities, MessageEntity.isSkipped size size other
  twin : ∃ ignored other others, entities = ignored ++ other :: others ∧
    (∀ e ∈ ignored, ¬ e.IsInside units position) ∧ other.IsInside units position ∧
    other.offset = entity.offset ∧ other.offset.toInt + other.length.toInt = (units : Int) ∧
    other.type.partType = entity.type.partType ∧ other.type.additional = entity.type.additional

/-- Every entity that is taken lies in the text, and there are no bytes behind the last one if
there are no units. -/
def CutsWell (size units : Nat) : Nat → List MessageEntity → Prop
  | position, [] => size = units ∨ position < units
  | position, entity :: entities =>
    if entity.isSkipped size position then CutsWell size units position entities
    else if entity.offset.toInt + entity.length.toInt ≤ units then
      CutsWell size units (entity.offset.toInt + entity.length.toInt).toNat entities
    else IsTwin size units position entity entities

/-! ### What is cut out -/

def textPart (text : List UInt16) (offset till : Int) : List TextPart :=
  if till > offset then [{ text := Utf16.toUtf8 (mid text offset (wrap (till - offset))) }] else []

def remaining (text : List UInt16) (size : Int) : Int → List MessageEntity → List TextPart
  | offset, [] => textPart text offset size
  | offset, entity :: entities =>
    if entity.isSkipped size offset then remaining text size offset entities
    else
      textPart text offset entity.offset.toInt ++
        { type := entity.type.partType
          text := Utf16.toUtf8 (mid text entity.offset.toInt entity.length.toInt)
          additional := entity.type.additional } ::
        remaining text size (wrap (entity.offset.toInt + entity.length.toInt)) entities

section

variable {units : List UInt16} {text before covered after : List Char} {size offset : Int}
  {entity : MessageEntity} {entities : List MessageEntity}

theorem addTextPart_result (till : Int) (s : ParsedText) :
    (s.addTextPart units till).result = s.result ++ textPart units s.offset till := by
  rw [ParsedText.addTextPart, textPart]
  split <;> simp

theorem foldl_addEntity (entities : List MessageEntity) (s : ParsedText) :
    ((entities.foldl (ParsedText.addEntity units size) s).addTextPart units size).result =
      s.result ++ remaining units size s.offset entities := by
  induction entities generalizing s with
  | nil => exact addTextPart_result size s
  | cons entity entities ih =>
    rw [List.foldl_cons, ih, remaining, ParsedText.addEntity]
    split
    · rfl
    · simp [addTextPart_result]

theorem parseText_eq (data : MTPString) (entities : List MessageEntity) :
    parseText data entities =
      remaining (Utf16.encode data.text) (Utf8.encode data.text).length 0 entities := by
  rw [parseText, foldl_addEntity]
  rfl

theorem mid_slice (before covered after : List Char) :
    mid (Utf16.encode (before ++ covered ++ after)) (Utf16.encode before).length
      (Utf16.encode covered).length = Utf16.encode covered := by
  simp only [Utf16.encode_append]
  rw [mid, if_neg, if_neg, if_neg, List.append_assoc, Int.toNat_natCast, Int.toNat_natCast,
    List.drop_left, List.take_left]
  · omega
  · omega
  · simp only [List.length_append]
    omega

theorem mid_rest (before covered : List Char) {length : Int}
    (hle : (Utf16.encode covered).length ≤ length) :
    mid (Utf16.encode (before ++ covered)) (Utf16.encode before).length length =
      Utf16.encode covered := by
  rw [Utf16.encode_append, mid, if_neg, if_neg, if_neg, Int.toNat_natCast, List.drop_left,
    List.take_of_length_le]
  · omega
  · omega
  · omega
  · rw [List.length_append]
    omega

theorem mid_behind {position length : Int} (h : units.length ≤ position) (hlength : 0 < length) :
    mid units position length = [] := by
  rw [mid]
  split
  · rfl
  · rw [if_neg (by omega), if_neg (by omega), List.drop_of_length_le (by omega), List.take_nil]

theorem encode_pos (h : text ≠ []) : 0 < (Utf16.encode text).length := by
  rw [List.length_pos_iff]
  exact fun hnil => h (Utf16.encode_eq_nil_iff.mp hnil)

theorem textPart_slice (hlt : (Utf16.encode covered).length < 2 ^ 31) :
    textPart (Utf16.encode (before ++ covered ++ after)) (Utf16.encode before).length
      (Utf16.encode (before ++ covered)).length = plain covered := by
  have hlength : ((Utf16.encode (before ++ covered)).length : Int) =
      (Utf16.encode before).length + (Utf16.encode covered).length := by
    rw [Utf16.encode_append, List.length_append, Nat.cast_add]
  rw [textPart, plain, hlength]
  by_cases hnil : covered = []
  · rw [if_pos hnil, if_neg]
    simp [hnil]
  · have hpos := encode_pos hnil
    rw [if_neg hnil, if_pos (by omega), add_sub_cancel_left, wrap_of_lt (by omega) (by omega),
      mid_slice, Utf16.toUtf8_encode]

/-- Up to a place behind the text all that is left is added, even if this is nothing. -/
theorem textPart_rest {till : Int} (htill : (Utf16.encode (before ++ covered)).length ≤ till)
    (hlt : (Utf16.encode before).length < till) (hmax : till < 2 ^ 31) :
    textPart (Utf16.encode (before ++ covered)) (Utf16.encode before).length till =
      [{ text := Utf8.encode covered }] := by
  rw [Utf16.encode_append, List.length_append, Nat.cast_add] at htill
  rw [textPart, if_pos hlt, wrap_of_lt (by omega) (by omega), mid_rest before covered (by omega),
    Utf16.toUtf8_encode]

theorem remaining_ne_nil (h : offset < size) : remaining units size offset entities ≠ [] := by
  induction entities with
  | nil =>
    rw [remaining, textPart, if_pos h]
    exact List.cons_ne_nil _ _
  | cons entity entities ih =>
    rw [remaining]
    split
    · exact ih
    · simp

/-- At the end nothing is added if and only if all entities are skipped. -/
theorem remaining_eq_nil_iff : remaining units size size entities = [] ↔
    ∀ e ∈ entities, e.isSkipped size size := by
  induction entities with
  | nil => simp [remaining, textPart]
  | cons entity entities ih =>
    rw [remaining, List.forall_mem_cons, ← ih]
    split
    · next h => simp [h]
    · next h => simp [h]

/-! ### What is expected -/

variable {position total : Nat}

theorem expected_ignored {ignored : List MessageEntity}
    (h : ∀ e ∈ ignored, ¬ e.IsInside total position) :
    expected total position text (ignored ++ entities) = expected total position text entities := by
  induction ignored with
  | nil => rfl
  | cons e ignored ih =>
    obtain ⟨he, hignored⟩ := List.forall_mem_cons.mp h
    rw [List.cons_append, expected, if_neg he, ih hignored]

theorem expected_end : expected total total [] entities = [] := by
  have h : ∀ e ∈ entities, ¬ e.IsInside total total := by
    intro e _ ⟨hstart, hlength, hend⟩
    omega
  have heq := @expected_ignored [] [] total total entities h
  rw [List.append_nil] at heq
  rw [heq]
  rfl

theorem flatMap_plain : (plain text).flatMap TextPart.text = Utf8.encode text := by
  rw [plain]
  split <;> simp [*]

theorem flatMap_expected :
    (expected total position text entities).flatMap TextPart.text = Utf8.encode text := by
  induction entities generalizing position text with
  | nil => exact flatMap_plain
  | cons entity entities ih =>
    rw [expected]
    split
    · rw [List.flatMap_append, flatMap_plain, List.flatMap_cons, ih, MessageEntity.part,
        ← Utf8.encode_append, Utf16.takeUnits_append_dropUnits, ← Utf8.encode_append,
        Utf16.takeUnits_append_dropUnits]
    · exact ih

theorem expected_inside (hinside : entity.IsInside total position)
    (hstart : entity.offset.toInt = position + (Utf16.encode before).length)
    (hlength : entity.length.toInt = (Utf16.encode covered).length) :
    expected total position (before ++ covered ++ after) (entity :: entities) =
      plain before ++ entity.part covered ::
        expected total (position + (Utf16.encode (before ++ covered)).length) after entities := by
  have htake : entity.offset.toInt.toNat - position = (Utf16.encode before).length := by omega
  have hcovered : entity.length.toInt.toNat = (Utf16.encode covered).length := by omega
  have hend : entity.offset.toInt.toNat + (Utf16.encode covered).length =
      position + (Utf16.encode (before ++ covered)).length := by
    rw [Utf16.encode_append, List.length_append]
    omega
  rw [expected, if_pos hinside, List.append_assoc]
  simp only [htake, hcovered, Utf16.takeUnits_length, Utf16.dropUnits_length, hend]

theorem exists_cut {done rest : List Char} (hwhole : entity.IsWhole (done ++ rest))
    (hinside : entity.IsInside (Utf16.encode (done ++ rest)).length (Utf16.encode done).length) :
    ∃ before covered after, rest = before ++ covered ++ after ∧ covered ≠ [] ∧
      entity.offset.toInt = (Utf16.encode done).length + (Utf16.encode before).length ∧
      entity.length.toInt = (Utf16.encode covered).length := by
  obtain ⟨hposition, hpos, hend⟩ := hinside
  have hboundary := hwhole.ends hpos hend
  have hstarts := hwhole.starts (by omega)
  obtain ⟨before, rest', rfl, hbefore⟩ := hstarts.of_append (by omega)
  rw [← List.append_assoc] at hboundary
  obtain ⟨covered, after, rfl, hcovered⟩ := hboundary.of_append (by
    rw [Utf16.encode_append, List.length_append]
    omega)
  rw [Utf16.encode_append, List.length_append] at hcovered
  refine ⟨before, covered, after, (List.append_assoc _ _ _).symm, ?_, by omega, by omega⟩
  rintro rfl
  rw [Utf16.encode_nil, List.length_nil] at hcovered
  omega

theorem plain_ne_nil : ∀ part ∈ plain text, part.text ≠ [] := by
  intro part hpart
  rw [plain] at hpart
  split at hpart
  · cases hpart
  · next h =>
    rw [List.mem_singleton.mp hpart]
    exact fun hnil => h (Utf8.encode_injective hnil)

theorem expected_ne_nil {done rest : List Char}
    (hwhole : ∀ e ∈ entities, e.IsWhole (done ++ rest)) :
    ∀ part ∈ expected (Utf16.encode (done ++ rest)).length (Utf16.encode done).length rest entities,
      part.text ≠ [] := by
  induction entities generalizing done rest with
  | nil => exact plain_ne_nil
  | cons entity entities ih =>
    obtain ⟨hentity, hwhole⟩ := List.forall_mem_cons.mp hwhole
    by_cases hinside : entity.IsInside (Utf16.encode (done ++ rest)).length
        (Utf16.encode done).length
    · obtain ⟨before, covered, after, rfl, hne, hstart, hlength⟩ := exists_cut hentity hinside
      rw [expected_inside hinside hstart hlength]
      intro part hpart
      rw [List.mem_append, List.mem_cons] at hpart
      rcases hpart with hplain | rfl | hrest
      · exact plain_ne_nil part hplain
      · exact fun hnil => hne (Utf8.encode_injective hnil)
      · have heq : done ++ (before ++ covered ++ after) = done ++ (before ++ covered) ++ after := by
          rw [List.append_assoc done]
        have hall := @ih (done ++ (before ++ covered)) after
        rw [heq] at hwhole hrest
        rw [Utf16.encode_append done, List.length_append] at hall
        exact hall hwhole part hrest
    · rw [expected, if_neg hinside]
      exact ih hwhole

theorem plain_append_cons_inj {part part' : TextPart} {parts parts' : List TextPart}
    (hpart : part.type ≠ .text) (hpart' : part'.type ≠ .text)
    (h : plain before ++ part :: parts = plain covered ++ part' :: parts') :
    before = covered ∧ part = part' ∧ parts = parts' := by
  rw [plain, plain] at h
  split at h
  · next hbefore =>
    split at h
    · next hcovered =>
      obtain ⟨rfl, rfl⟩ := List.cons.inj h
      exact ⟨by rw [hbefore, hcovered], rfl, rfl⟩
    · obtain ⟨rfl, -⟩ := List.cons.inj h
      exact absurd rfl hpart
  · split at h
    · obtain ⟨rfl, -⟩ := List.cons.inj h
      exact absurd rfl hpart'
    · obtain ⟨hplain, hrest⟩ := List.cons.inj h
      obtain ⟨rfl, rfl⟩ := List.cons.inj hrest
      exact ⟨Utf8.encode_injective (congrArg TextPart.text hplain), rfl, rfl⟩

theorem partType_ne_text (type : EntityType) : type.partType ≠ .text := by
  cases type <;> exact TextType.noConfusion

/-- When the text ends with one entity, this is the first that lies in it. -/
theorem exists_of_expected_eq {done : List Char} {part : TextPart}
    (hwhole : ∀ e ∈ entities, e.IsWhole (done ++ (before ++ covered))) (htype : part.type ≠ .text)
    (h : expected (Utf16.encode (done ++ (before ++ covered))).length (Utf16.encode done).length
      (before ++ covered) entities = plain before ++ [part]) :
    ∃ ignored, ∃ other : MessageEntity, ∃ others, entities = ignored ++ other :: others ∧
      (∀ e ∈ ignored, ¬ e.IsInside (Utf16.encode (done ++ (before ++ covered))).length
        (Utf16.encode done).length) ∧
      other.IsInside (Utf16.encode (done ++ (before ++ covered))).length
        (Utf16.encode done).length ∧
      other.offset.toInt = (Utf16.encode done).length + (Utf16.encode before).length ∧
      other.length.toInt = (Utf16.encode covered).length ∧
      other.type.partType = part.type ∧ other.type.additional = part.additional := by
  induction entities with
  | nil =>
    rw [expected] at h
    have hmem : part ∈ plain (before ++ covered) := by
      rw [h]
      exact List.mem_append_right _ (List.mem_singleton.mpr rfl)
    rw [plain] at hmem
    split at hmem
    · cases hmem
    · rw [List.mem_singleton.mp hmem] at htype
      exact absurd rfl htype
  | cons entity entities ih =>
    obtain ⟨hentity, hwhole⟩ := List.forall_mem_cons.mp hwhole
    by_cases hinside : entity.IsInside (Utf16.encode (done ++ (before ++ covered))).length
        (Utf16.encode done).length
    · refine ⟨[], entity, entities, rfl, by simp, hinside, ?_⟩
      obtain ⟨before', covered', after, heq, -, hstart, hlength⟩ := exists_cut hentity hinside
      rw [heq, expected_inside (by rw [← heq]; exact hinside) hstart hlength] at h
      obtain ⟨rfl, rfl, hnone⟩ := plain_append_cons_inj (partType_ne_text _) htype h
      have hafter := congrArg (List.flatMap TextPart.text) hnone
      rw [flatMap_expected] at hafter
      obtain rfl : after = [] := Utf8.encode_injective hafter
      rw [List.append_nil, List.append_cancel_left_eq] at heq
      rw [heq]
      exact ⟨hstart, hlength, rfl, rfl⟩
    · rw [expected, if_neg hinside] at h
      obtain ⟨ignored, other, others, rfl, hignored, hother⟩ := ih hwhole h
      exact ⟨entity :: ignored, other, others, rfl,
        List.forall_mem_cons.mpr ⟨hinside, hignored⟩, hother⟩

/-! ### The parts -/

theorem not_isSkipped_iff : entity.isSkipped size offset = false ↔
    offset ≤ entity.offset.toInt ∧ 0 < entity.length.toInt ∧
      wrap (entity.offset.toInt + entity.length.toInt) ≤ size := by
  simp [MessageEntity.isSkipped, and_assoc]

theorem MessageEntity.IsInside.not_isSkipped (h : entity.IsInside total position)
    (hle : total ≤ size) (hmax : size < 2 ^ 31) : entity.isSkipped size position = false := by
  obtain ⟨hposition, hpos, hend⟩ := h
  rw [not_isSkipped_iff, wrap_of_lt (by omega) (by omega)]
  omega

theorem mem_remaining (htaken : entity.isSkipped size offset = false) :
    { type := entity.type.partType
      text := Utf16.toUtf8 (mid units entity.offset.toInt entity.length.toInt)
      additional := entity.type.additional } ∈ remaining units size offset (entity :: entities) := by
  rw [remaining, htaken, if_neg Bool.false_ne_true]
  exact List.mem_append_right _ List.mem_cons_self

/-- An entity that is taken becomes a part, with the plain text before it. -/
theorem remaining_taken {done rest : List Char}
    (htaken : entity.isSkipped size (Utf16.encode done).length = false)
    (hstart : entity.offset.toInt = (Utf16.encode (done ++ before)).length)
    (hmid : mid (Utf16.encode (done ++ before ++ rest)) (Utf16.encode (done ++ before)).length
      entity.length.toInt = Utf16.encode covered) :
    remaining (Utf16.encode (done ++ before ++ rest)) size (Utf16.encode done).length
        (entity :: entities) =
      plain before ++ entity.part covered ::
        remaining (Utf16.encode (done ++ before ++ rest)) size
          (wrap (entity.offset.toInt + entity.length.toInt)) entities := by
  have hmax := Int32.toInt_lt entity.offset
  have hbefore : (Utf16.encode before).length < 2 ^ 31 := by
    rw [Utf16.encode_append, List.length_append] at hstart
    omega
  rw [remaining, htaken, if_neg Bool.false_ne_true, hstart, textPart_slice hbefore, hmid,
    Utf16.toUtf8_encode]
  rfl

theorem eq_nil_of_flatMap {parts : List TextPart} (hne : ∀ part ∈ parts, part.text ≠ [])
    (h : parts.flatMap TextPart.text = []) : parts = [] := by
  rw [List.eq_nil_iff_forall_not_mem]
  intro part hpart
  exact hne part hpart (List.flatMap_eq_nil_iff.mp h part hpart)

/-- An entity that is taken but not in the text is seen in the parts, unless another one has its
place. -/
theorem remaining_outside_iff {done rest : List Char} {bytes : Nat}
    (hentity : entity.IsWhole (done ++ rest)) (hwhole : ∀ e ∈ entities, e.IsWhole (done ++ rest))
    (hle : (Utf16.encode (done ++ rest)).length ≤ bytes) (hmax : bytes < 2 ^ 31)
    (htaken : entity.isSkipped bytes (Utf16.encode done).length = false)
    (houtside : (Utf16.encode (done ++ rest)).length < entity.offset.toInt + entity.length.toInt) :
    remaining (Utf16.encode (done ++ rest)) bytes (Utf16.encode done).length (entity :: entities) =
        expected (Utf16.encode (done ++ rest)).length (Utf16.encode done).length rest entities ↔
      IsTwin bytes (Utf16.encode (done ++ rest)).length (Utf16.encode done).length entity
        entities := by
  obtain ⟨hposition, hpos, hsum⟩ := not_isSkipped_iff.mp htaken
  have hstartMax := Int32.toInt_lt entity.offset
  have hlengthMax := Int32.toInt_lt entity.length
  constructor
  · intro h
    have hne := expected_ne_nil hwhole
    rw [← h] at hne
    have hstart : entity.offset.toInt < (Utf16.encode (done ++ rest)).length := by
      by_contra hbehind
      have hpart := hne _ (mem_remaining htaken)
      rw [mid_behind (by omega) hpos] at hpart
      exact hpart rfl
    obtain ⟨before, covered, rfl, hbefore⟩ := (hentity.starts (by omega)).of_append (by omega)
    have hoffset : entity.offset.toInt = (Utf16.encode (done ++ before)).length := by
      rw [Utf16.encode_append, List.length_append]
      omega
    have hlength : (Utf16.encode covered).length ≤ entity.length.toInt := by
      rw [← List.append_assoc, Utf16.encode_append, List.length_append] at houtside
      omega
    have htext : remaining _ _ _ (entity :: entities) = _ := remaining_taken htaken hoffset
      (mid_rest (done ++ before) covered hlength)
    rw [List.append_assoc] at htext
    rw [htext] at h hne
    -- the two parts are all the text, so nothing follows them
    have hmore : remaining (Utf16.encode (done ++ (before ++ covered))) bytes
        (wrap (entity.offset.toInt + entity.length.toInt)) entities = [] := by
      apply eq_nil_of_flatMap
      · intro part hpart
        exact hne part (List.mem_append_right _ (List.mem_cons_of_mem _ hpart))
      · have hconcat := congrArg (List.flatMap TextPart.text) h
        rw [flatMap_expected, List.flatMap_append, flatMap_plain, List.flatMap_cons,
          MessageEntity.part, Utf8.encode_append, ← List.append_assoc] at hconcat
        exact List.append_right_eq_self.mp hconcat
    have hwrap : wrap (entity.offset.toInt + entity.length.toInt) = bytes := by
      by_contra hne
      exact remaining_ne_nil (by omega) hmore
    rw [hmore] at h
    rw [hwrap] at hmore
    have hends : entity.offset.toInt + entity.length.toInt = bytes := by
      by_cases hoverflow : entity.offset.toInt + entity.length.toInt < 2 ^ 31
      · rw [← hwrap, wrap_of_lt (by omega) hoverflow]
      · have hneg := @wrap_of_le (entity.offset.toInt + entity.length.toInt) (by omega) (by omega)
        omega
    obtain ⟨ignored, other, others, heq, hignored, hother, hstart', hlength', htype⟩ :=
      exists_of_expected_eq hwhole (partType_ne_text _) h.symm
    refine ⟨hends, remaining_eq_nil_iff.mp hmore, ignored, other, others, heq, hignored, hother,
      Int32.toInt_inj.mp (by omega), ?_, htype⟩
    rw [hstart', hlength', ← List.append_assoc, Utf16.encode_append, Utf16.encode_append,
      List.length_append, List.length_append]
    omega
  · intro htwin
    obtain ⟨hends, hlast, ignored, other, others, rfl, hignored, hother, hsame, hend, htype,
      hadditional⟩ := htwin
    have hlengthPos := hother.2.1
    rw [hsame] at hend
    obtain ⟨before, covered, rfl, hbefore⟩ := (hentity.starts (by omega)).of_append (by omega)
    have hoffset : entity.offset.toInt = (Utf16.encode (done ++ before)).length := by
      rw [Utf16.encode_append, List.length_append]
      omega
    have htotal : (Utf16.encode (done ++ (before ++ covered))).length =
        (Utf16.encode (done ++ before)).length + (Utf16.encode covered).length := by
      rw [← List.append_assoc, Utf16.encode_append (done ++ before), List.length_append]
    have htext : remaining _ _ _ (entity :: (ignored ++ other :: others)) = _ :=
      remaining_taken htaken hoffset (mid_rest (done ++ before) covered (by omega))
    rw [List.append_assoc, hends, wrap_of_lt (by omega) (by omega),
      remaining_eq_nil_iff.mpr hlast] at htext
    have hpart : other.part covered = entity.part covered := by
      rw [MessageEntity.part, MessageEntity.part, htype, hadditional]
    have hexpected := @expected_inside before covered [] other others _ _ hother (by
      rw [hsame, hoffset, Utf16.encode_append, List.length_append, Nat.cast_add]) (by omega)
    have hposition : (Utf16.encode done).length + (Utf16.encode (before ++ covered)).length =
        (Utf16.encode (done ++ (before ++ covered))).length := by
      rw [Utf16.encode_append done, List.length_append]
    rw [List.append_nil, hposition, expected_end, hpart] at hexpected
    rw [htext, expected_ignored hignored, hexpected]

theorem remaining_eq_iff {done rest : List Char} {bytes : Nat}
    (hwhole : ∀ e ∈ entities, e.IsWhole (done ++ rest))
    (hle : (Utf16.encode (done ++ rest)).length ≤ bytes) (hmax : bytes < 2 ^ 31) :
    remaining (Utf16.encode (done ++ rest)) bytes (Utf16.encode done).length entities =
        expected (Utf16.encode (done ++ rest)).length (Utf16.encode done).length rest entities ↔
      CutsWell bytes (Utf16.encode (done ++ rest)).length (Utf16.encode done).length entities := by
  induction entities generalizing done rest with
  | nil =>
    rw [remaining, expected, CutsWell]
    by_cases hrest : rest = []
    · rw [hrest, List.append_nil] at hle ⊢
      have hplain : plain [] = [] := rfl
      rw [hplain, textPart]
      split
      · next hlt =>
        constructor
        · intro hnil
          cases hnil
        · intro heq
          omega
      · next hge =>
        simp only [true_iff]
        omega
    · have hpos := encode_pos hrest
      have hlength : (Utf16.encode (done ++ rest)).length =
          (Utf16.encode done).length + (Utf16.encode rest).length := by
        rw [Utf16.encode_append, List.length_append]
      rw [textPart_rest (by omega) (by omega) (by omega), plain, if_neg hrest]
      simp only [true_iff]
      omega
  | cons entity entities ih =>
    obtain ⟨hentity, hentities⟩ := List.forall_mem_cons.mp hwhole
    have hstartMin := hentity.offset_nonneg
    rw [CutsWell]
    cases htaken : entity.isSkipped bytes (Utf16.encode done).length with
    | true =>
      have hnot : ¬ entity.IsInside (Utf16.encode (done ++ rest)).length
          (Utf16.encode done).length := by
        intro hinside
        rw [hinside.not_isSkipped (by omega) (by omega)] at htaken
        cases htaken
      rw [remaining, htaken, if_pos rfl, expected, if_neg hnot, if_pos rfl]
      exact ih hentities hle
    | false =>
      obtain ⟨hposition, hpos, hsum⟩ := not_isSkipped_iff.mp htaken
      rw [if_neg Bool.false_ne_true]
      by_cases hend : entity.offset.toInt + entity.length.toInt ≤ (Utf16.encode (done ++ rest)).length
      · rw [if_pos hend]
        have hinside : entity.IsInside (Utf16.encode (done ++ rest)).length
            (Utf16.encode done).length := ⟨hposition, hpos, hend⟩
        obtain ⟨before, covered, after, rfl, hne, hstart, hlength⟩ := exists_cut hentity hinside
        rw [expected_inside hinside hstart hlength]
        have hoffset : entity.offset.toInt = (Utf16.encode (done ++ before)).length := by
          rw [Utf16.encode_append, List.length_append]
          omega
        have hmid := mid_slice (done ++ before) covered after
        rw [← hlength, List.append_assoc] at hmid
        have htext : remaining _ _ _ (entity :: entities) = _ := remaining_taken htaken hoffset hmid
        have hend' : entity.offset.toInt + entity.length.toInt =
            (Utf16.encode (done ++ (before ++ covered))).length := by
          rw [← List.append_assoc, Utf16.encode_append (done ++ before), List.length_append]
          omega
        have hposition : (Utf16.encode done).length + (Utf16.encode (before ++ covered)).length =
            (Utf16.encode (done ++ (before ++ covered))).length := by
          rw [Utf16.encode_append done, List.length_append]
        have hassoc : done ++ (before ++ covered ++ after) =
            done ++ (before ++ covered) ++ after := (List.append_assoc _ _ _).symm
        have hassoc' : done ++ before ++ (covered ++ after) =
            done ++ (before ++ covered) ++ after := by simp
        rw [hassoc] at hentities hle hend hinside ⊢
        rw [hassoc', hend', wrap_of_lt (by omega) (by omega)] at htext
        rw [htext, hposition, hend', Int.toNat_natCast, ← ih hentities hle,
          List.append_cancel_left_eq, List.cons.injEq]
        exact and_iff_right rfl
      · have hnot : ¬ entity.IsInside (Utf16.encode (done ++ rest)).length
            (Utf16.encode done).length := fun hinside => hend hinside.2.2
        rw [if_neg hend, expected, if_neg hnot]
        exact remaining_outside_iff hentity hentities hle hmax htaken (by omega)

end

def boldFirst : MessageEntity := ⟨.messageEntityBold, 0, 1⟩

end TelegramClient.Export
