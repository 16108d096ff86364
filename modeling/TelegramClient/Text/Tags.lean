import TelegramClient.Storage.DataStream

/-! The tags of a text as they are kept in the clipboard and in files
(`ui/text/text_entity.cpp`). -/

namespace TelegramClient.Text

open DataStream

/-- `TextWithTags::Tag`, which covers a part of a text. -/
structure Tag where
  offset : Int32
  length : Int32
  id : List UInt16
  deriving DecidableEq, Repr

def serializeTag (tag : Tag) : List UInt8 :=
  writeInt32 tag.offset ++ writeInt32 tag.length ++ writeString tag.id

def serializeTags (tags : List Tag) : List UInt8 :=
  if tags = [] then [] else writeInt32 (.ofNat tags.length) ++ tags.flatMap serializeTag

def readTag : Reader Tag := do
  let offset ← readInt32
  let length ← readInt32
  let id ← readString
  return { offset, length, id }

/-- The bound check, with the sum as the code computes it. -/
def inBounds (textLength : Int32) (tag : Tag) : Bool :=
  !(tag.offset < 0 || tag.length ≤ 0 || tag.offset + tag.length > textLength)

def readTags (textLength : Int32) : Nat → List Tag → Reader (List Tag)
  | 0, result => pure result
  | count + 1, result => do
    let tag ← readTag
    let ok ← status
    if !ok then pure result
    else if !inBounds textLength tag then pure result
    else readTags textLength count (result ++ [tag])

def deserializeStream (textLength : Int32) : Reader (List Tag) := do
  let tagCount ← readInt32
  let ok ← status
  if !ok then pure []
  else if tagCount ≤ 0 || tagCount > textLength then pure []
  else readTags textLength tagCount.toNatClampNeg []

def deserializeTags (data : List UInt8) (textLength : Int32) : List Tag :=
  if data = [] then []
  else ((deserializeStream textLength).run ⟨data, true⟩).elim [] Prod.fst

/-- The tag is a part of the text. -/
def Tag.Inside (textLength : Int32) (tag : Tag) : Prop :=
  0 ≤ tag.offset.toInt ∧ 0 < tag.length.toInt ∧
    tag.offset.toInt + tag.length.toInt ≤ textLength.toInt

/-! ### What the data holds -/

/-- The tags that are there in full. -/
def storedFrom : Nat → Source → List Tag
  | 0, _ => []
  | count + 1, s =>
    (readTag s).elim [] fun (tag, s') => if s'.ok then tag :: storedFrom count s' else []

/-- The tags in the data, if it promises no more of them than the text may have. -/
def storedTags (data : List UInt8) (textLength : Int32) : List Tag :=
  (readInt32 ⟨data, true⟩).elim [] fun (tagCount, s) =>
    if s.ok ∧ tagCount ≤ textLength then storedFrom tagCount.toNatClampNeg s else []

theorem readString_isSome (s : Source) : (readString s).isSome := by
  obtain ⟨len, s₁, hlen⟩ : ∃ len s₁, readUInt32 s = some (len, s₁) := ⟨_, _, rfl⟩
  rw [readString, hlen, Option.bind_eq_bind, Option.bind_some]
  dsimp only
  split_ifs <;> rfl

theorem readTag_isSome (s : Source) : (readTag s).isSome := by
  obtain ⟨offset, s₁, hoffset⟩ : ∃ v s₁, readInt32 s = some (v, s₁) := ⟨_, _, rfl⟩
  obtain ⟨length, s₂, hlength⟩ : ∃ v s₂, readInt32 s₁ = some (v, s₂) := ⟨_, _, rfl⟩
  obtain ⟨⟨id, s₃⟩, hid⟩ := Option.isSome_iff_exists.mp (readString_isSome s₂)
  rw [readTag, bind_some hoffset, bind_some hlength, bind_some hid]
  rfl

theorem readTags_eq (textLength : Int32) (count : Nat) (result : List Tag) (s : Source) :
    ∃ s', readTags textLength count result s =
      some (result ++ (storedFrom count s).takeWhile (inBounds textLength), s') := by
  induction count generalizing result s with
  | zero =>
    use s
    rw [storedFrom, List.takeWhile_nil, List.append_nil]
    rfl
  | succ count ih =>
    obtain ⟨⟨tag, s₁⟩, htag⟩ := Option.isSome_iff_exists.mp (readTag_isSome s)
    have hstatus : status s₁ = some (s₁.ok, s₁) := rfl
    rw [readTags, bind_some htag, bind_some hstatus, storedFrom, htag, Option.elim_some]
    by_cases hok : s₁.ok = true
    · by_cases hbounds : inBounds textLength tag = true
      · obtain ⟨s', hread⟩ := ih (result ++ [tag]) s₁
        use s'
        simpa [hok, hbounds] using hread
      · use s₁
        simp [hok, hbounds]
        rfl
    · use s₁
      simp [hok]
      rfl

/-- What is read are the stored tags, up to the first one out of bounds. -/
theorem deserializeTags_eq (data : List UInt8) (textLength : Int32) :
    deserializeTags data textLength =
      (storedTags data textLength).takeWhile (inBounds textLength) := by
  obtain ⟨tagCount, s, hcount⟩ : ∃ v s, readInt32 ⟨data, true⟩ = some (v, s) := ⟨_, _, rfl⟩
  have hstatus : status s = some (s.ok, s) := rfl
  rw [storedTags, hcount, Option.elim_some]
  by_cases hempty : data = []
  · subst hempty
    obtain ⟨-, rfl⟩ := Prod.mk.inj (Option.some.inj hcount)
    simp [deserializeTags]
  have hrun : (deserializeStream textLength).run ⟨data, true⟩ =
      (if !s.ok then pure [] else if tagCount ≤ 0 || tagCount > textLength then pure []
      else readTags textLength tagCount.toNatClampNeg [] : Reader (List Tag)) s := by
    change deserializeStream textLength ⟨data, true⟩ = _
    rw [deserializeStream, bind_some hcount, bind_some hstatus]
  rw [deserializeTags, if_neg hempty, hrun]
  by_cases hok : s.ok = true
  · by_cases hle : tagCount ≤ textLength
    · by_cases hcount : tagCount ≤ 0
      · have hzero : tagCount.toNatClampNeg = 0 := by
          have hint := Int32.le_iff_toInt_le.mp hcount
          have htoNat := Int32.toNat_toInt tagCount
          simp only [Int32.toInt_zero] at hint
          omega
        simp [hok, hcount, hzero, storedFrom]
        rfl
      · have hnot : ¬ textLength < tagCount := Int32.not_lt.mpr hle
        obtain ⟨s', hread⟩ := readTags_eq textLength tagCount.toNatClampNeg [] s
        simp [hok, hle, hcount, hnot, hread]
    · have hlt : textLength < tagCount := Int32.not_le.mp hle
      simp [hok, hle, hlt]
      rfl
  · simp [hok]
    rfl

/-! ### The bound check -/

theorem inBounds_iff {textLength : Int32} {tag : Tag} :
    inBounds textLength tag = true ↔ 0 ≤ tag.offset.toInt ∧ 0 < tag.length.toInt ∧
      (tag.offset.toInt + tag.length.toInt).bmod (2 ^ 32) ≤ textLength.toInt := by
  simp [inBounds, Int32.le_iff_toInt_le, and_assoc]

theorem bmod_sum {tag : Tag} (h : 0 ≤ tag.offset.toInt) (h' : 0 < tag.length.toInt) :
    (tag.offset.toInt + tag.length.toInt).bmod (2 ^ 32) =
      if tag.offset.toInt + tag.length.toInt < 2 ^ 31 then tag.offset.toInt + tag.length.toInt
      else tag.offset.toInt + tag.length.toInt - 2 ^ 32 := by
  have hoffset := tag.offset.toInt_lt
  have hlength := tag.length.toInt_lt
  rw [Int.bmod_def]
  split_ifs <;> omega

theorem Tag.Inside.inBounds {textLength : Int32} {tag : Tag} (h : tag.Inside textLength) :
    inBounds textLength tag = true := by
  have hmax := textLength.toInt_lt
  obtain ⟨hoffset, hlength, hend⟩ := h
  rw [inBounds_iff, bmod_sum hoffset hlength, if_pos (by omega)]
  exact ⟨hoffset, hlength, hend⟩

/-- A sum that stays in the range of the numbers is checked as it is. -/
theorem inside_of_inBounds {textLength : Int32} {tag : Tag}
    (hbounds : inBounds textLength tag = true)
    (hsum : 0 ≤ tag.offset.toInt → 0 < tag.length.toInt →
      tag.offset.toInt + tag.length.toInt < 2 ^ 31) : tag.Inside textLength := by
  obtain ⟨hoffset, hlength, hend⟩ := inBounds_iff.mp hbounds
  rw [bmod_sum hoffset hlength, if_pos (hsum hoffset hlength)] at hend
  exact ⟨hoffset, hlength, hend⟩

/-- A sum past the range of the numbers comes out below zero, and passes the check. -/
theorem inBounds_of_overflow {textLength : Int32} {tag : Tag} (hnonneg : 0 ≤ textLength.toInt)
    (hoffset : 0 ≤ tag.offset.toInt) (hlength : 0 < tag.length.toInt)
    (hsum : 2 ^ 31 ≤ tag.offset.toInt + tag.length.toInt) : inBounds textLength tag = true := by
  have hoffsetMax := tag.offset.toInt_lt
  have hlengthMax := tag.length.toInt_lt
  rw [inBounds_iff, bmod_sum hoffset hlength, if_neg (by omega)]
  exact ⟨hoffset, hlength, by omega⟩

/-- Behind tags inside the text only, no tag has an offset and a length with a sum past the range
of the numbers. -/
def SumsFit (textLength : Int32) (stored : List Tag) : Prop :=
  ∀ A tag B, stored = A ++ tag :: B → (∀ a ∈ A, a.Inside textLength) →
    0 ≤ tag.offset.toInt → 0 < tag.length.toInt → tag.offset.toInt + tag.length.toInt < 2 ^ 31

theorem takeWhile_inside_iff {textLength : Int32} {stored : List Tag}
    (hnonneg : stored ≠ [] → 0 ≤ textLength.toInt) :
    (∀ tag ∈ stored.takeWhile (inBounds textLength), tag.Inside textLength) ↔
      SumsFit textLength stored := by
  constructor
  · intro hall A tag B hstored hA hoffset hlength
    by_contra hsum
    have hbounds := inBounds_of_overflow (hnonneg (by simp [hstored])) hoffset hlength
      (Int.not_lt.mp hsum)
    have hmem : tag ∈ stored.takeWhile (inBounds textLength) := by
      rw [hstored, List.takeWhile_append_of_pos fun a ha => (hA a ha).inBounds,
        List.takeWhile_cons_of_pos hbounds]
      simp
    have hend := (hall tag hmem).2.2
    have hmax := textLength.toInt_lt
    omega
  · intro hfit
    induction stored with
    | nil => simp
    | cons tag stored ih =>
      by_cases hbounds : inBounds textLength tag = true
      · have hinside : tag.Inside textLength :=
          inside_of_inBounds hbounds (hfit [] tag stored rfl (by simp))
        rw [List.takeWhile_cons_of_pos hbounds, List.forall_mem_cons]
        refine ⟨hinside, ih (fun _ => hnonneg (by simp)) ?_⟩
        intro A other B hstored hA
        apply hfit (tag :: A) other B
        · rw [hstored, List.cons_append]
        · exact List.forall_mem_cons.mpr ⟨hinside, hA⟩
      · rw [List.takeWhile_cons_of_neg hbounds]
        simp

theorem storedTags_nonneg {data : List UInt8} {textLength : Int32}
    (h : storedTags data textLength ≠ []) : 0 ≤ textLength.toInt := by
  obtain ⟨tagCount, s, hcount⟩ : ∃ v s, readInt32 ⟨data, true⟩ = some (v, s) := ⟨_, _, rfl⟩
  rw [storedTags, hcount, Option.elim_some] at h
  by_contra hneg
  apply h
  have htoNat := Int32.toNat_toInt tagCount
  by_cases hle : s.ok = true ∧ tagCount ≤ textLength
  · have hint := Int32.le_iff_toInt_le.mp hle.2
    have hzero : tagCount.toNatClampNeg = 0 := by omega
    simp [hzero, storedFrom]
  · simp [hle]

/-! ### Reading back what was written -/

theorem readTag_serializeTag {tag : Tag} (h : tag.id.length < 2 ^ 31) (rest : List UInt8) :
    readTag ⟨serializeTag tag ++ rest, true⟩ = some (tag, ⟨rest, true⟩) := by
  rw [readTag, serializeTag, List.append_assoc, List.append_assoc,
    bind_some (readInt32_append _ _ _), bind_some (readInt32_append _ _ _),
    bind_some (readString_append h _)]
  rfl

theorem storedFrom_serialized {tags : List Tag} (h : ∀ tag ∈ tags, tag.id.length < 2 ^ 31) :
    storedFrom tags.length ⟨tags.flatMap serializeTag, true⟩ = tags := by
  induction tags with
  | nil => rfl
  | cons tag tags ih =>
    rw [List.forall_mem_cons] at h
    rw [List.length_cons, storedFrom, List.flatMap_cons, readTag_serializeTag h.1,
      Option.elim_some]
    simp [ih h.2]

theorem storedTags_serializeTags {tags : List Tag} {textLength : Int32}
    (h : ∀ tag ∈ tags, tag.id.length < 2 ^ 31) (hcount : tags.length ≤ textLength.toInt)
    (hne : tags ≠ []) : storedTags (serializeTags tags) textLength = tags := by
  have hmax := textLength.toInt_lt
  have hint : (Int32.ofNat tags.length).toInt = tags.length := Int32.toInt_ofNat_of_lt (by omega)
  have hnat : (Int32.ofNat tags.length).toNatClampNeg = tags.length :=
    Int32.toNatClampNeg_ofNat_of_lt (by omega)
  have hle : Int32.ofNat tags.length ≤ textLength := by
    rw [Int32.le_iff_toInt_le, hint]
    exact hcount
  rw [storedTags, serializeTags, if_neg hne, readInt32_append, Option.elim_some]
  simp [hle, hnat, storedFrom_serialized h]

theorem deserializeTags_serializeTags {tags : List Tag} {textLength : Int32}
    (h : ∀ tag ∈ tags, tag.Inside textLength ∧ tag.id.length < 2 ^ 31)
    (hcount : tags.length ≤ textLength.toInt) :
    deserializeTags (serializeTags tags) textLength = tags := by
  by_cases hne : tags = []
  · subst hne
    rfl
  · rw [deserializeTags_eq, storedTags_serializeTags (fun tag htag => (h tag htag).2) hcount hne,
      List.takeWhile_eq_self_iff]
    intro tag htag
    exact (h tag htag).1.inBounds

/-- The tags that are read are inside the text unless a sum runs over, and tags inside the text
are read back. The size of a `QString` is an `int`. -/
theorem deserializeTags_inside (data : List UInt8) (textLength : Int32) :
    ((∀ tag ∈ deserializeTags data textLength, tag.Inside textLength) ↔
      SumsFit textLength (storedTags data textLength)) ∧
    ∀ tags : List Tag, (∀ tag ∈ tags, tag.Inside textLength ∧ tag.id.length < 2 ^ 31) →
      tags.length ≤ textLength.toInt → deserializeTags (serializeTags tags) textLength = tags := by
  constructor
  · rw [deserializeTags_eq]
    exact takeWhile_inside_iff storedTags_nonneg
  · intro tags h hcount
    exact deserializeTags_serializeTags h hcount

theorem deserializeTags_inside_two :
    (∀ tag ∈ deserializeTags (serializeTags [⟨0, 3, [97]⟩, ⟨3, 2, []⟩]) 5, tag.Inside 5) ∧
      deserializeTags (serializeTags [⟨0, 3, [97]⟩, ⟨3, 2, []⟩]) 5 =
        [⟨0, 3, [97]⟩, ⟨3, 2, []⟩] := by
  have hvalid : ∀ tag ∈ [(⟨0, 3, [97]⟩ : Tag), ⟨3, 2, []⟩],
      tag.Inside 5 ∧ tag.id.length < 2 ^ 31 := by
    simp [Tag.Inside]
  have hread := (deserializeTags_inside [] 5).2 _ hvalid (by decide)
  constructor
  · rw [hread]
    intro tag htag
    exact (hvalid tag htag).1
  · exact hread

/-- The sum of the greatest offset and one is below zero. -/
theorem deserializeTags_overflow :
    ∃ tag ∈ deserializeTags (serializeTags [⟨2147483647, 1, []⟩]) 5, ¬ tag.Inside 5 := by
  refine ⟨⟨2147483647, 1, []⟩, by decide, ?_⟩
  rintro ⟨-, -, hend⟩
  revert hend
  decide

end TelegramClient.Text
