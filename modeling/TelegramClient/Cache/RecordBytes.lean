import TelegramClient.Cache.Types

/-! Round trips between records and their bytes, and the framing of the binlog. -/

namespace TelegramClient.Cache

theorem field_cons (b : UInt8) (bs : List UInt8) (offset n : Nat) :
    field (b :: bs) (offset + 1) n = field bs offset n := rfl

theorem field_leBytes (n v : Nat) (bs : List UInt8) :
    field (leBytes n v ++ bs) 0 n = v % 256 ^ n := by
  rw [field, List.drop_zero, List.take_left' (length_leBytes n v), leValue_leBytes]

theorem field_skip {as bs : List UInt8} {offset n : Nat} (h : as.length ≤ offset) :
    field (as ++ bs) offset n = field bs (offset - as.length) n := by
  rw [field, field, List.drop_append, List.drop_of_length_le h, List.nil_append]

theorem field_append {as : List UInt8} {offset n : Nat} (h : offset + n ≤ as.length)
    (bs : List UInt8) : field (as ++ bs) offset n = field as offset n := by
  rw [field, field, List.drop_append_of_le_length (by omega), List.take_append_of_le_length]
  rw [List.length_drop]
  omega

@[simp] theorem length_encodeKey (k : Key) : (encodeKey k).length = sizeofKey := by
  simp [encodeKey, sizeofKey]

@[simp] theorem length_encodeTime (t : EstimatedTimePoint) : (encodeTime t).length = 12 := by
  simp [encodeTime]

@[simp] theorem length_encodeStore (tracked : Bool) (s : Store) :
    (encodeStore tracked s).length = sizeofStore tracked := by
  cases tracked <;> simp [encodeStore, sizeofStore, sizeofKey]

theorem decodeKey_encodeKey (k : Key) (bs : List UInt8) :
    decodeKey (encodeKey k ++ bs) = k := by
  have hh : k.high.toNat % 256 ^ 8 = k.high.toNat := Nat.mod_eq_of_lt k.high.toNat_lt
  have hl : k.low.toNat % 256 ^ 8 = k.low.toNat := Nat.mod_eq_of_lt k.low.toNat_lt
  rw [decodeKey, encodeKey, List.append_assoc, field_leBytes, hh, field_skip (by simp),
    length_leBytes, field_leBytes, hl, UInt64.ofNat_toNat, UInt64.ofNat_toNat]

theorem decodeTime_encodeTime (t : EstimatedTimePoint) (bs : List UInt8) :
    decodeTime (encodeTime t ++ bs) = t := by
  have hr : t.relative.toNat % 256 ^ 8 = t.relative.toNat := Nat.mod_eq_of_lt t.relative.toNat_lt
  have hs : t.system.toNat % 256 ^ 4 = t.system.toNat := Nat.mod_eq_of_lt t.system.toNat_lt
  rw [decodeTime, encodeTime, List.append_assoc, field_leBytes, hr, field_skip (by simp),
    length_leBytes, field_leBytes, hs, UInt64.ofNat_toNat, UInt32.ofNat_toNat]

/-- The untracked format has no place for a time. -/
def Store.Fits (tracked : Bool) (s : Store) : Prop := tracked = false → s.time = {}

theorem field_zero (bytes : List UInt8) (offset n : Nat) :
    field bytes offset n = field (bytes.drop offset) 0 n := rfl

theorem drop_leBytes {m n : Nat} (h : m ≤ n) (v : Nat) (bs : List UInt8) :
    (leBytes m v ++ bs).drop n = bs.drop (n - m) := by
  rw [List.drop_append, List.drop_of_length_le (by simpa using h), List.nil_append, length_leBytes]

theorem decodeStore_encodeStore {tracked : Bool} {s : Store} (h : s.Fits tracked)
    (bs : List UInt8) : decodeStore tracked (encodeStore tracked s ++ bs) = s := by
  have hsize : s.size.toNat % 256 ^ 3 = s.size.toNat := Nat.mod_eq_of_lt s.size.isLt
  have hplace : s.place.toNat % 256 ^ 7 = s.place.toNat := Nat.mod_eq_of_lt s.place.isLt
  have hsum : s.checksum.toNat % 256 ^ 4 = s.checksum.toNat :=
    Nat.mod_eq_of_lt s.checksum.toNat_lt
  generalize hb : encodeStore tracked s ++ bs = bytes
  have h2 : bytes.drop 2 = leBytes 3 s.size.toNat ++ (leBytes 7 s.place.toNat ++
      (leBytes 4 s.checksum.toNat ++ (encodeKey s.key ++
        ((if tracked then encodeTime s.time ++ leBytes 4 0 else []) ++ bs)))) := by
    rw [← hb]
    simp [encodeStore]
  have h5 : bytes.drop 5 = leBytes 7 s.place.toNat ++ (leBytes 4 s.checksum.toNat ++
      (encodeKey s.key ++ ((if tracked then encodeTime s.time ++ leBytes 4 0 else []) ++ bs))) := by
    rw [show 5 = 2 + 3 from rfl, ← List.drop_drop, h2, drop_leBytes (by decide), List.drop_zero]
  have h12 : bytes.drop 12 = leBytes 4 s.checksum.toNat ++ (encodeKey s.key ++
      ((if tracked then encodeTime s.time ++ leBytes 4 0 else []) ++ bs)) := by
    rw [show 12 = 5 + 7 from rfl, ← List.drop_drop, h5, drop_leBytes (by decide), List.drop_zero]
  have h16 : bytes.drop 16 = encodeKey s.key ++
      ((if tracked then encodeTime s.time ++ leBytes 4 0 else []) ++ bs) := by
    rw [show 16 = 12 + 4 from rfl, ← List.drop_drop, h12, drop_leBytes (by decide), List.drop_zero]
  have h32 : bytes.drop 32 = (if tracked then encodeTime s.time ++ leBytes 4 0 else []) ++ bs := by
    rw [show 32 = 16 + 16 from rfl, ← List.drop_drop, h16,
      List.drop_left' (show (encodeKey s.key).length = 16 from length_encodeKey s.key)]
  have htag : UInt8.ofNat (field bytes 1 1) = s.tag := by
    rw [← hb]
    simp [encodeStore, field, leValue]
  rw [decodeStore, htag, field_zero bytes 2, h2, field_zero bytes 5, h5, field_zero bytes 12, h12,
    h16, decodeKey_encodeKey, field_leBytes, field_leBytes, field_leBytes, hsize, hplace, hsum, h32,
    BitVec.ofNat_toNat, BitVec.ofNat_toNat, BitVec.setWidth_eq, BitVec.setWidth_eq,
    UInt32.ofNat_toNat]
  cases tracked with
  | true => simp [List.append_assoc, decodeTime_encodeTime]
  | false =>
    have ht := h rfl
    cases s
    simp_all

theorem decodeParts_flatMap {α : Type} {decode : List UInt8 → α} {encode : α → List UInt8}
    {width : Nat} (hw : ∀ a, (encode a).length = width) {parts : List α}
    (hd : ∀ a ∈ parts, ∀ bs, decode (encode a ++ bs) = a) (bs : List UInt8) :
    decodeParts decode width parts.length (parts.flatMap encode ++ bs) = parts := by
  induction parts with
  | nil => rfl
  | cons a parts ih =>
    have ha := hd a (by simp) (parts.flatMap encode ++ bs)
    have hi := ih fun b hb => hd b (by simp [hb])
    rw [List.flatMap_cons, List.append_assoc, List.length_cons, decodeParts, ha,
      List.drop_left' (hw a), hi]

theorem length_flatMap_width {α : Type} {encode : α → List UInt8} {width : Nat}
    (hw : ∀ a, (encode a).length = width) (parts : List α) :
    (parts.flatMap encode).length = parts.length * width := by
  induction parts with
  | nil => simp
  | cons a parts ih =>
    rw [List.flatMap_cons, List.length_append, hw, ih, List.length_cons, Nat.succ_mul, Nat.add_comm]

/-- A record that its constructor and the reader's count check let through. -/
def Record.WellFormed (tracked : Bool) (limit : Nat) : Record → Prop
  | .store s => s.Fits tracked
  | .multiStore parts => 0 < parts.length ∧ parts.length ≤ limit ∧ ∀ s ∈ parts, s.Fits tracked
  | .multiRemove keys => 0 < keys.length ∧ keys.length ≤ limit
  | .multiAccess _ keys => tracked = true ∧ keys.length ≤ limit

@[simp] theorem length_encodeHead (type : UInt8) (count : Nat) (tail : List UInt8) :
    (encodeHead type count tail).length = 4 + tail.length := by
  simp [encodeHead]
  omega

theorem headCount_encodeHead {count : Nat} (h : count < kBundledRecordsLimit) (type : UInt8)
    (tail bs : List UInt8) : headCount (encodeHead type count tail ++ bs) = count := by
  have hc : encodeHead type count tail ++ bs = type :: (leBytes 3 count ++ (tail ++ bs)) := by
    simp [encodeHead]
  rw [headCount, hc, field_cons, field_leBytes]
  exact Nat.mod_eq_of_lt h

theorem readRecordSizeMulti_encodeHead (type : UInt8) {tail : List UInt8} (ht : tail.length = 12)
    (part : Nat) (strict : Bool) {count limit : Nat} (hc : count ≤ limit)
    (hl : limit < kBundledRecordsLimit) (hs : strict = true → 0 < count) (bs : List UInt8) :
    readRecordSizeMulti (encodeHead type count tail ++ bs) limit part strict =
      .known (sizeofHead + count * part) := by
  have hlen : ¬(encodeHead type count tail ++ bs).length < sizeofHead := by
    simp [ht, sizeofHead]
  have hcount := headCount_encodeHead (hc.trans_lt hl) type tail bs
  have hv : validateCount strict (encodeHead type count tail ++ bs) = some count := by
    rw [validateCount, hcount]
    cases strict with
    | false => simp
    | true => simp [(hs rfl).ne']
  rw [readRecordSizeMulti, if_neg hlen, hv]
  simp [hc]

theorem decodeMulti_encodeHead {α : Type} {decode : List UInt8 → α} {encode : α → List UInt8}
    {part limit : Nat} (type : UInt8) {tail : List UInt8} (ht : tail.length = 12) (strict : Bool)
    {parts : List α} (hw : ∀ a, (encode a).length = part)
    (hd : ∀ a ∈ parts, ∀ bs, decode (encode a ++ bs) = a) (hc : parts.length ≤ limit)
    (hl : limit < kBundledRecordsLimit) (hs : strict = true → 0 < parts.length) :
    decodeMulti decode part strict
      (encodeHead type parts.length tail ++ parts.flatMap encode) = .ok parts := by
  have hhead : (encodeHead type parts.length tail).length = sizeofHead := by
    simp [ht, sizeofHead]
  have hlen : ¬(encodeHead type parts.length tail ++ parts.flatMap encode).length < sizeofHead := by
    rw [List.length_append, hhead]
    omega
  have hcount := headCount_encodeHead (hc.trans_lt hl) type tail (parts.flatMap encode)
  have hv : validateCount strict (encodeHead type parts.length tail ++ parts.flatMap encode) =
      some parts.length := by
    rw [validateCount, hcount]
    cases strict with
    | false => simp
    | true => simp [(hs rfl).ne']
  have hp := decodeParts_flatMap hw hd []
  rw [List.append_nil] at hp
  rw [decodeMulti, if_neg hlen, hv, List.drop_left' hhead]
  simp [length_flatMap_width hw, ht, sizeofHead, hp]

variable {tracked : Bool} {limit : Nat} {r : Record}

theorem readRecordSize_encode (h : r.WellFormed tracked limit)
    (hl : limit < kBundledRecordsLimit) :
    readRecordSize tracked limit (r.encode tracked) = .known (r.encode tracked).length := by
  cases r with
  | store s =>
    rw [Record.encode, length_encodeStore]
    rfl
  | multiStore parts =>
    have hm := readRecordSizeMulti_encodeHead 0x02 (length_leBytes 12 0) (sizeofStore tracked) true
      h.2.1 hl (fun _ => h.1) (parts.flatMap (encodeStore tracked))
    have hw := length_flatMap_width (length_encodeStore tracked) parts
    rw [Record.encode, List.length_append, hw, length_encodeHead, length_leBytes]
    exact hm
  | multiRemove keys =>
    have hm := readRecordSizeMulti_encodeHead 0x03 (length_leBytes 12 0) sizeofKey true h.2 hl
      (fun _ => h.1) (keys.flatMap encodeKey)
    rw [Record.encode, List.length_append, length_flatMap_width length_encodeKey, length_encodeHead,
      length_leBytes]
    exact hm
  | multiAccess time keys =>
    obtain ⟨rfl, hk⟩ := h
    have hm := readRecordSizeMulti_encodeHead 0x04 (length_encodeTime time) sizeofKey false hk hl
      (by simp) (keys.flatMap encodeKey)
    rw [Record.encode, List.length_append, length_flatMap_width length_encodeKey, length_encodeHead,
      length_encodeTime]
    exact hm

theorem decodeRecord_encode (h : r.WellFormed tracked limit) (hl : limit < kBundledRecordsLimit) :
    decodeRecord tracked (r.encode tracked) = .ok r := by
  cases r with
  | store s =>
    have hs := decodeStore_encodeStore h []
    rw [List.append_nil] at hs
    have hd : decodeRecord tracked (encodeStore tracked s) =
        if (encodeStore tracked s).length = sizeofStore tracked then
          .ok (.store (decodeStore tracked (encodeStore tracked s)))
        else .error .assertion := rfl
    rw [Record.encode, hd, if_pos (length_encodeStore tracked s), hs]
  | multiStore parts =>
    have hm := decodeMulti_encodeHead 0x02 (length_leBytes 12 0) true (length_encodeStore tracked)
      (fun s hs => decodeStore_encodeStore (h.2.2 s hs)) h.2.1 hl (fun _ => h.1)
    have hd : decodeRecord tracked (Record.encode tracked (.multiStore parts)) = .multiStore <$>
        decodeMulti (decodeStore tracked) (sizeofStore tracked) true
          (Record.encode tracked (.multiStore parts)) := rfl
    rw [hd, Record.encode, hm]
    rfl
  | multiRemove keys =>
    have hd : ∀ k ∈ keys, ∀ bs, decodeKey (encodeKey k ++ bs) = k :=
      fun k _ => decodeKey_encodeKey k
    have hm := decodeMulti_encodeHead 0x03 (length_leBytes 12 0) true length_encodeKey hd h.2 hl
      (fun _ => h.1)
    have hd : decodeRecord tracked (Record.encode tracked (.multiRemove keys)) = .multiRemove <$>
        decodeMulti decodeKey sizeofKey true (Record.encode tracked (.multiRemove keys)) := rfl
    rw [hd, Record.encode, hm]
    rfl
  | multiAccess time keys =>
    obtain ⟨rfl, hk⟩ := h
    have hd : ∀ k ∈ keys, ∀ bs, decodeKey (encodeKey k ++ bs) = k :=
      fun k _ => decodeKey_encodeKey k
    have hm := decodeMulti_encodeHead 0x04 (length_encodeTime time) false length_encodeKey hd hk hl
      (by simp)
    have hd : decodeRecord true (Record.encode true (.multiAccess time keys)) =
        .multiAccess (decodeTime ((Record.encode true (.multiAccess time keys)).drop 4)) <$>
          decodeMulti decodeKey sizeofKey false (Record.encode true (.multiAccess time keys)) := rfl
    have ht : (Record.encode true (.multiAccess time keys)).drop 4 =
        encodeTime time ++ keys.flatMap encodeKey := by
      simp [Record.encode, encodeHead]
    rw [hd, ht, decodeTime_encodeTime, Record.encode, hm]
    rfl

/-! ### The framing of the binlog -/

theorem headCount_append {data : List UInt8} (h : sizeofHead ≤ data.length) (bs : List UInt8) :
    headCount (data ++ bs) = headCount data :=
  field_append (by simp only [sizeofHead] at h; omega) bs

theorem readRecordSizeMulti_append {data : List UInt8} (h : sizeofHead ≤ data.length)
    (part : Nat) (strict : Bool) (bs : List UInt8) :
    readRecordSizeMulti (data ++ bs) limit part strict =
      readRecordSizeMulti data limit part strict := by
  have hl : ¬(data ++ bs).length < sizeofHead := by
    rw [List.length_append]
    omega
  rw [readRecordSizeMulti, readRecordSizeMulti, if_neg hl, if_neg (Nat.not_lt.mpr h),
    validateCount, validateCount, headCount_append h]

theorem readRecordSizeMulti_eq_unknown {data : List UInt8} {part : Nat} {strict : Bool} :
    readRecordSizeMulti data limit part strict = .unknown ↔ data.length < sizeofHead := by
  by_cases h : data.length < sizeofHead
  · simp [readRecordSizeMulti, h]
  · rw [readRecordSizeMulti, if_neg h]
    cases validateCount strict data with
    | none => simp [h]
    | some count => by_cases hc : count ≤ limit <;> simp [h, hc]

theorem readRecordSizeMulti_eq_known {data : List UInt8} {part n : Nat} {strict : Bool}
    (h : readRecordSizeMulti data limit part strict = .known n) :
    sizeofHead ≤ data.length ∧ validateCount strict data = some (headCount data) ∧
      headCount data ≤ limit ∧ n = sizeofHead + headCount data * part := by
  by_cases hl : data.length < sizeofHead
  · simp [readRecordSizeMulti, hl] at h
  rw [readRecordSizeMulti, if_neg hl] at h
  by_cases hs : strict = true ∧ headCount data = 0
  · simp [validateCount, hs] at h
  have hv : validateCount strict data = some (headCount data) := if_neg hs
  rw [hv] at h
  by_cases hc : headCount data ≤ limit
  · simp only [hc, if_true, FrameSize.known.injEq] at h
    exact ⟨Nat.not_lt.mp hl, hv, hc, h.symm⟩
  · simp [hc] at h

theorem decodeMulti_ok {α : Type} (decode : List UInt8 → α) {data : List UInt8} {part : Nat}
    {strict : Bool} (h : readRecordSizeMulti data limit part strict = .known data.length) :
    ∃ parts, decodeMulti decode part strict data = .ok parts := by
  obtain ⟨hl, hv, -, hn⟩ := readRecordSizeMulti_eq_known h
  rw [decodeMulti, if_neg (Nat.not_lt.mpr hl), hv]
  simp [← hn]

/-- By its first byte a record is a store, a list whose header counts its parts,
or nothing the reader knows. -/
theorem readRecordSize_cases (tracked : Bool) (limit : Nat) (type : UInt8) :
    (type = 0x01) ∨
    (∃ part strict, part % 16 = 0 ∧ ∀ bs, readRecordSize tracked limit (type :: bs) =
        readRecordSizeMulti (type :: bs) limit part strict ∧
      (readRecordSizeMulti (type :: bs) limit part strict = .known (type :: bs).length →
        ∃ r, decodeRecord tracked (type :: bs) = .ok r)) ∨
    (∀ bs, readRecordSize tracked limit (type :: bs) = .invalid) := by
  have hstore : sizeofStore tracked % 16 = 0 := by cases tracked <;> rfl
  by_cases h1 : type = 0x01
  · exact .inl h1
  by_cases h2 : type = 0x02
  · subst h2
    apply Or.inr
    apply Or.inl
    use sizeofStore tracked, true, hstore
    intro bs
    use rfl
    intro h
    obtain ⟨parts, hp⟩ := decodeMulti_ok (decodeStore tracked) h
    use .multiStore parts
    show Except.map _ (decodeMulti _ _ _ _) = _
    rw [hp]
    rfl
  by_cases h3 : type = 0x03
  · subst h3
    apply Or.inr
    apply Or.inl
    use sizeofKey, true, rfl
    intro bs
    use rfl
    intro h
    obtain ⟨keys, hk⟩ := decodeMulti_ok decodeKey h
    use .multiRemove keys
    show Except.map _ (decodeMulti _ _ _ _) = _
    rw [hk]
    rfl
  by_cases h4 : type = 0x04 ∧ tracked = true
  · obtain ⟨rfl, rfl⟩ := h4
    apply Or.inr
    apply Or.inl
    use sizeofKey, false, rfl
    intro bs
    use rfl
    intro h
    obtain ⟨keys, hk⟩ := decodeMulti_ok decodeKey h
    use .multiAccess (decodeTime ((0x04 :: bs).drop 4)) keys
    show Except.map _ (decodeMulti _ _ _ _) = _
    rw [hk]
    rfl
  · apply Or.inr
    apply Or.inr
    intro bs
    simp only [readRecordSize, if_neg h1, if_neg h2, if_neg h3, if_neg h4]

theorem readRecordSize_store (tracked : Bool) (limit : Nat) (bs : List UInt8) :
    readRecordSize tracked limit (0x01 :: bs) = .known (sizeofStore tracked) := rfl

theorem readRecordSize_known {data : List UInt8} {n : Nat}
    (h : readRecordSize tracked limit data = .known n) : sizeofHead ≤ n ∧ n % 16 = 0 := by
  cases data with
  | nil => cases h
  | cons type bs =>
    rcases readRecordSize_cases tracked limit type with rfl | ⟨part, strict, hpart, hm⟩ | hi
    · rw [readRecordSize_store, FrameSize.known.injEq] at h
      subst h
      cases tracked <;> decide
    · rw [(hm bs).1] at h
      obtain ⟨-, -, -, rfl⟩ := readRecordSizeMulti_eq_known h
      use Nat.le_add_right _ _
      rw [sizeofHead, Nat.add_mod, Nat.mul_mod, hpart, Nat.mul_zero]
    · rw [hi bs] at h
      cases h

/-- The binlog as a stream of records. -/
def binlogFraming (tracked : Bool) (limit : Nat) : Framing UInt8 where
  measure := readRecordSize tracked limit
  header := sizeofHead
  ne_unknown data hd := by
    cases data with
    | nil => simp [sizeofHead] at hd
    | cons type bs =>
      rcases readRecordSize_cases tracked limit type with rfl | ⟨part, strict, -, hm⟩ | hi
      · simp [readRecordSize_store]
      · rw [(hm bs).1, ne_eq, readRecordSizeMulti_eq_unknown]
        omega
      · simp [hi bs]
  stable data bs hd := by
    cases data with
    | nil => exact absurd rfl hd
    | cons type tail =>
      rw [List.cons_append]
      rcases readRecordSize_cases tracked limit type with rfl | ⟨part, strict, -, hm⟩ | hi
      · rfl
      · rw [(hm tail).1, ne_eq, readRecordSizeMulti_eq_unknown] at hd
        rw [(hm tail).1, (hm _).1, ← List.cons_append, readRecordSizeMulti_append (by omega)]
      · rw [hi, hi]
  header_pos := by decide
  header_le data n h := (readRecordSize_known h).1
  nil_unknown := rfl

theorem isFrame_encode (h : r.WellFormed tracked limit) (hl : limit < kBundledRecordsLimit) :
    (binlogFraming tracked limit).IsFrame (r.encode tracked) :=
  readRecordSize_encode h hl

theorem decodeRecord_of_isFrame {f : List UInt8} (h : (binlogFraming tracked limit).IsFrame f) :
    ∃ r, decodeRecord tracked f = .ok r := by
  have hm : readRecordSize tracked limit f = .known f.length := h
  cases f with
  | nil => cases hm
  | cons type bs =>
    rcases readRecordSize_cases tracked limit type with rfl | ⟨part, strict, -, hd⟩ | hi
    · rw [readRecordSize_store, FrameSize.known.injEq] at hm
      use .store (decodeStore tracked (0x01 :: bs))
      show (if (0x01 :: bs : List UInt8).length = sizeofStore tracked then _ else _) = _
      rw [if_pos hm.symm]
    · exact (hd bs).2 ((hd bs).1 ▸ hm)
    · rw [hi bs] at hm
      cases hm

theorem length_mod_of_isFrame {f : List UInt8} (h : (binlogFraming tracked limit).IsFrame f) :
    f.length % 16 = 0 := (readRecordSize_known h).2

end TelegramClient.Cache
