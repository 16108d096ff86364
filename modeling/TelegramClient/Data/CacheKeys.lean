import TelegramClient.Ui.ImageLocation

/-! The keys of files in the cache (`data/data_types.cpp`, `ui/image/image_location.cpp`). -/

namespace TelegramClient.Data

/-- `Storage::Cache::Key` -/
structure Key where
  high : UInt64 := 0
  low : UInt64 := 0
  deriving DecidableEq

def kDocumentCacheTag : UInt64 := 0x0000000000000100

def kDocumentCacheMask : UInt64 := 0x00000000000000FF

def kDocumentThumbCacheTag : UInt64 := 0x0000000000000200

def kDocumentThumbCacheMask : UInt64 := 0x00000000000000FF

def kWebDocumentCacheTag : UInt64 := 0x0000020000000000

def kUrlCacheTag : UInt64 := 0x0000030000000000

def kGeoPointCacheTag : UInt64 := 0x0000040000000000

def documentCacheKey (dcId : Int32) (id : UInt64) : Key where
  high := kDocumentCacheTag ||| dcId.toInt64.toUInt64 &&& kDocumentCacheMask
  low := id

def documentThumbCacheKey (dcId : Int32) (id : UInt64) : Key :=
  let part := dcId.toInt64.toUInt64 &&& kDocumentThumbCacheMask
  { high := kDocumentThumbCacheTag ||| part, low := id }

/-- The number in some bytes of a hash, the lowest byte first. -/
def part (hash : List UInt8) (offset size : Nat) : Nat :=
  ((hash.drop offset).take size).foldr (fun byte n => n * 256 + byte.toNat) 0

section Hashed

variable (sha256 : List UInt8 → List UInt8)

def webDocumentCacheKey (cTestMode : Bool) (url : List UInt8) : Key :=
  let cacheDcId : UInt64 := if cTestMode then 2 else 4
  let dcId := cacheDcId &&& 0xFF
  let hash := sha256 url
  let part1 : UInt32 := .ofNat (part hash 0 4)
  let part2 : UInt64 := .ofNat (part hash 4 8)
  { high := kWebDocumentCacheTag ||| dcId <<< 32 ||| part1.toUInt64, low := part2 }

/-- The url comes in UTF-8. -/
def urlCacheKey (url : List UInt8) : Key :=
  let hash := sha256 url
  let part1 : UInt32 := .ofNat (part hash 0 4)
  let part2 : UInt64 := .ofNat (part hash 4 8)
  let part3 : UInt16 := .ofNat (part hash 12 2)
  { high := kUrlCacheTag ||| part3.toUInt64 <<< 32 ||| part1.toUInt64, low := part2 }

end Hashed

structure GeoPointLocation where
  lat : Float
  lon : Float
  width : Int32
  height : Int32
  zoom : Int32
  scale : Int32

def geoPointCacheKey (location : GeoPointLocation) : Key :=
  let zoomscale := (location.zoom.toUInt32 &&& 0x0F) <<< 8 ||| location.scale.toUInt32 &&& 0x0F
  let widthheight :=
    (location.width.toUInt32 &&& 0xFFFF) <<< 16 ||| location.height.toUInt32 &&& 0xFFFF
  { high := kGeoPointCacheTag ||| zoomscale.toUInt64 <<< 32 ||| widthheight.toUInt64
    low := (((location.lat + 360).abs * 1000000).round.toUInt64 <<< 32) |||
      ((location.lon + 360).abs * 1000000).round.toUInt64 }

end TelegramClient.Data

namespace TelegramClient.Ui.StorageFileLocation

open Data

def kDocumentBaseCacheTag : UInt64 := 0x0000000000010000

def kDocumentBaseCacheMask : UInt64 := 0x000000000000FF00

def cacheKey (loc : StorageFileLocation) : Key :=
  let shifted := (loc.type.toUInt8.toUInt64 + 3) <<< 8
  let sliced := loc.dcId.toUInt64 &&& 0xFF
  match loc.type with
  | .legacy | .peerPhoto | .stickerSetThumb =>
    { high := shifted ||| sliced ||| loc.localId.toUInt32.toUInt64 <<< 16, low := loc.volumeId }
  | .encrypted | .secure => { high := shifted ||| sliced, low := loc.id }
  | .document =>
    if loc.sizeLetter = 0 then documentCacheKey loc.dcIdInt loc.id
    else { high := shifted ||| sliced ||| loc.sizeLetter.toUInt64 <<< 16, low := loc.id }
  | .photo => { high := shifted ||| sliced ||| loc.sizeLetter.toUInt64 <<< 16, low := loc.id }
  | .takeout => { high := shifted, low := 0 }

/-- It fails for all but documents. -/
def bigFileBaseCacheKey (loc : StorageFileLocation) : Option Key :=
  match loc.type with
  | .document =>
    let high := kDocumentBaseCacheTag ||| loc.dcId.toUInt64 <<< 16 &&& kDocumentBaseCacheMask |||
      loc.id >>> 48
    let low := loc.id <<< 16
    if low &&& 0xFF = 0 then some { high, low } else none
  | _ => none

/-- The key of a slice (`Reader::CacheHelper::key`). -/
def sliceKey (baseKey : Key) (sliceNumber : Nat) : Key where
  high := baseKey.high
  low := baseKey.low + UInt64.ofNat sliceNumber

/-! ### The fields of a key -/

variable (loc : StorageFileLocation)

/-- The upper field. -/
def field : Nat :=
  match loc.type with
  | .legacy | .peerPhoto | .stickerSetThumb => loc.localId.toUInt32.toNat
  | .document | .photo => loc.sizeLetter.toNat
  | .encrypted | .secure | .takeout => 0

/-- The kind of the key: `1` for a document itself. -/
def kind : Nat :=
  match loc.type with
  | .document => if loc.sizeLetter = 0 then 1 else 5
  | type => type.toUInt8.toNat + 3

def dcByte : Nat :=
  match loc.type with
  | .takeout => 0
  | _ => loc.dcId.toNat % 256

/-- The lower word. -/
def name : UInt64 :=
  match loc.type with
  | .legacy | .peerPhoto | .stickerSetThumb => loc.volumeId
  | .encrypted | .secure | .document | .photo => loc.id
  | .takeout => 0

variable {loc}

theorem kind_lt : loc.kind < 2 ^ 8 := by
  rw [kind]
  split
  · split <;> omega
  · cases loc.type <;> decide

theorem dcByte_lt : loc.dcByte < 2 ^ 8 := by
  rw [dcByte]
  split
  · omega
  · omega

variable {n d : Nat} {tag dc word : UInt64}

/-- The tag and the data center are in different bits. -/
theorem toNat_lower (htag : tag.toNat = n * 2 ^ 8) (hdc : dc.toNat % 256 = d) :
    (tag ||| dc &&& (0xFF : UInt64)).toNat = n * 2 ^ 8 + d := by
  have hbyte : (dc &&& (0xFF : UInt64)).toNat = d := by
    rw [UInt64.toNat_and, ← hdc]
    exact Nat.and_two_pow_sub_one_eq_mod dc.toNat 8
  rw [UInt64.toNat_or, htag, hbyte, Bits.mul_or (by omega)]

theorem toNat_high (htag : tag.toNat = n * 2 ^ 8) (hn : n < 2 ^ 8) (hdc : dc.toNat % 256 = d)
    (hword : word.toNat < 2 ^ 32) :
    (tag ||| dc &&& (0xFF : UInt64) ||| word <<< (16 : UInt64)).toNat =
      word.toNat * 2 ^ 16 + (n * 2 ^ 8 + d) := by
  have hupper : (word <<< (16 : UInt64)).toNat = word.toNat * 2 ^ 16 := by
    rw [UInt64.toNat_shiftLeft, Nat.shiftLeft_eq]
    have h16 : (16 : UInt64).toNat % 64 = 16 := rfl
    rw [h16, Nat.mod_eq_of_lt (by omega)]
  rw [UInt64.toNat_or, toNat_lower htag hdc, hupper, Nat.or_comm, Bits.mul_or (by omega)]

theorem toNat_shifted (type : LocationType) :
    ((type.toUInt8.toUInt64 + 3) <<< (8 : UInt64)).toNat = (type.toUInt8.toNat + 3) * 2 ^ 8 := by
  cases type <;> rfl

theorem type_lt (type : LocationType) : type.toUInt8.toNat + 3 < 2 ^ 8 := by
  cases type <;> decide

theorem toNat_dcIdInt (loc : StorageFileLocation) :
    loc.dcIdInt.toInt64.toUInt64.toNat = loc.dcId.toNat := by
  have hlt := loc.dcId.toNat_lt
  have hint : loc.dcIdInt.toInt = loc.dcId.toNat := by
    rw [dcIdInt, Int32.toInt, BitVec.toInt_eq_toNat_cond, Int32.toNat_toBitVec,
      UInt32.toUInt32_toInt32, UInt16.toNat_toUInt32, if_pos (by omega)]
  rw [← Int64.toNat_toBitVec, Int64.toNat_toBitVec_of_le]
  · rw [Int64.toNatClampNeg, Int32.toInt_toInt64, hint]
    simp
  · rw [Int64.le_iff_toInt_le, Int32.toInt_toInt64, hint]
    simp

theorem cacheKey_fields (loc : StorageFileLocation) :
    loc.cacheKey.high.toNat = loc.field * 2 ^ 16 + (loc.kind * 2 ^ 8 + loc.dcByte) ∧
      loc.cacheKey.low = loc.name := by
  have hdc : loc.dcId.toUInt64.toNat % 256 = loc.dcId.toNat % 256 := by
    rw [UInt16.toNat_toUInt64]
  have hlower := toNat_lower (toNat_shifted loc.type) hdc
  have hlocal := @toNat_high _ _ _ _ loc.localId.toUInt32.toUInt64 (toNat_shifted loc.type)
    (type_lt loc.type) hdc (by rw [UInt32.toNat_toUInt64]; exact loc.localId.toUInt32.toNat_lt)
  have hletter := @toNat_high _ _ _ _ loc.sizeLetter.toUInt64 (toNat_shifted loc.type)
    (type_lt loc.type) hdc (by rw [UInt8.toNat_toUInt64]; have := loc.sizeLetter.toNat_lt; omega)
  rw [UInt32.toNat_toUInt64] at hlocal
  rw [UInt8.toNat_toUInt64] at hletter
  unfold cacheKey field kind dcByte name
  cases htype : loc.type with
  | legacy =>
    rw [htype] at hlocal
    exact ⟨hlocal, rfl⟩
  | peerPhoto =>
    rw [htype] at hlocal
    exact ⟨hlocal, rfl⟩
  | stickerSetThumb =>
    rw [htype] at hlocal
    exact ⟨hlocal, rfl⟩
  | encrypted =>
    rw [htype] at hlower
    exact ⟨hlower.trans (by rw [Nat.zero_mul, Nat.zero_add]), rfl⟩
  | secure =>
    rw [htype] at hlower
    exact ⟨hlower.trans (by rw [Nat.zero_mul, Nat.zero_add]), rfl⟩
  | document =>
    by_cases hzero : loc.sizeLetter = 0
    · have htag : kDocumentCacheTag.toNat = 1 * 2 ^ 8 := rfl
      have hdocument := toNat_lower htag (congrArg (· % 256) loc.toNat_dcIdInt)
      dsimp only
      rw [if_pos hzero, if_pos hzero, hzero, UInt8.toNat_zero, Nat.zero_mul, Nat.zero_add]
      exact ⟨hdocument, rfl⟩
    · rw [htype] at hletter
      dsimp only
      rw [if_neg hzero, if_neg hzero]
      exact ⟨hletter, rfl⟩
  | photo =>
    rw [htype] at hletter
    exact ⟨hletter, rfl⟩
  | takeout =>
    rw [Nat.zero_mul, Nat.zero_add, Nat.add_zero]
    exact ⟨toNat_shifted .takeout, rfl⟩

/-- Keys are equal when all their fields are. -/
theorem cacheKey_eq_iff {a b : StorageFileLocation} :
    a.cacheKey = b.cacheKey ↔
      a.field = b.field ∧ a.kind = b.kind ∧ a.dcByte = b.dcByte ∧ a.name = b.name := by
  obtain ⟨hhigh, hlow⟩ := cacheKey_fields a
  obtain ⟨hhigh', hlow'⟩ := cacheKey_fields b
  have hkind := @kind_lt a
  have hkind' := @kind_lt b
  have hdc := @dcByte_lt a
  have hdc' := @dcByte_lt b
  constructor
  · intro h
    rw [h, hhigh'] at hhigh
    rw [h, hlow'] at hlow
    exact ⟨by omega, by omega, by omega, hlow.symm⟩
  · intro ⟨hfield, hkinds, hdcs, hname⟩
    have hhighs : a.cacheKey.high = b.cacheKey.high := by
      apply UInt64.toNat_inj.mp
      rw [hhigh, hhigh', hfield, hkinds, hdcs]
    have hlows : a.cacheKey.low = b.cacheKey.low := by
      rw [hlow, hlow', hname]
    calc a.cacheKey = ⟨a.cacheKey.high, a.cacheKey.low⟩ := rfl
      _ = b.cacheKey := by rw [hhighs, hlows]

/-- A kind has one type. -/
theorem type_eq_of_kind {a b : StorageFileLocation} (h : a.kind = b.kind) : a.type = b.type := by
  have hkind : ∀ loc : StorageFileLocation, loc.type = .document ∧ (loc.kind = 1 ∨ loc.kind = 5) ∨
      loc.type ≠ .document ∧ loc.kind = loc.type.toUInt8.toNat + 3 := by
    intro loc
    rw [kind]
    cases loc.type with
    | document => by_cases hzero : loc.sizeLetter = 0 <;> simp [hzero]
    | _ => exact .inr ⟨(by decide), rfl⟩
  rcases hkind a with ⟨ha, hka⟩ | ⟨ha, hka⟩ <;> rcases hkind b with ⟨hb, hkb⟩ | ⟨hb, hkb⟩
  · rw [ha, hb]
  · exfalso
    revert hb hkb
    cases b.type <;> simp [LocationType.toUInt8] <;> omega
  · exfalso
    revert ha hka
    cases a.type <;> simp [LocationType.toUInt8] <;> omega
  · rw [hka, hkb] at h
    revert h
    cases a.type <;> cases b.type <;> simp [LocationType.toUInt8]

/-! ### Locations of files -/

/-- Two locations are of different files. -/
def DifferentFiles (a b : StorageFileLocation) : Prop :=
  a.type ≠ b.type ∨ a.dcId ≠ b.dcId ∨
    match a.type with
    | .legacy | .peerPhoto | .stickerSetThumb => a.volumeId ≠ b.volumeId ∨ a.localId ≠ b.localId
    | .document | .photo => a.id ≠ b.id ∨ a.sizeLetter ≠ b.sizeLetter
    | .encrypted | .secure => a.id ≠ b.id
    | .takeout => False

theorem dcByte_of_ne (hne : loc.type ≠ .takeout) (hdc : loc.dcId ≤ 255) :
    loc.dcByte = loc.dcId.toNat := by
  have hle : loc.dcId.toNat ≤ 255 := UInt16.le_iff_toNat_le.mp hdc
  rw [dcByte]
  split
  · next htype => exact absurd htype hne
  · omega

theorem cacheKey_ne_iff {a b : StorageFileLocation} (ha : a.dcId ≤ 255) (hb : b.dcId ≤ 255)
    (h : a.DifferentFiles b) :
    a.cacheKey ≠ b.cacheKey ↔ ¬(a.type = .takeout ∧ b.type = .takeout) := by
  rw [not_iff_not, cacheKey_eq_iff]
  constructor
  · intro ⟨hfield, hkind, hdc, hname⟩
    have htype := type_eq_of_kind hkind
    by_contra htakeout
    have hne : a.type ≠ .takeout := fun heq => htakeout ⟨heq, htype ▸ heq⟩
    have hdcs : a.dcId = b.dcId := by
      rw [dcByte_of_ne hne ha, dcByte_of_ne (htype ▸ hne) hb] at hdc
      exact UInt16.toNat_inj.mp hdc
    have hsame := (h.resolve_left (not_not_intro htype)).resolve_left (not_not_intro hdcs)
    rw [field, field, ← htype] at hfield
    rw [name, name, ← htype] at hname
    cases hcase : a.type with
    | legacy | peerPhoto | stickerSetThumb =>
      simp only [hcase] at hsame hfield hname
      rcases hsame with hvolume | hlocal
      · exact hvolume hname
      · exact hlocal (by simpa using congrArg UInt32.toInt32 (UInt32.toNat_inj.mp hfield))
    | document | photo =>
      simp only [hcase] at hsame hfield hname
      rcases hsame with hid | hletter
      · exact hid hname
      · exact hletter (UInt8.toNat_inj.mp hfield)
    | encrypted | secure =>
      simp only [hcase] at hsame hname
      exact hsame hname
    | takeout => exact hne hcase
  · intro ⟨htype, htype'⟩
    simp [field, kind, dcByte, name, htype, htype']

/-! ### Slices of documents -/

variable {a b c : StorageFileLocation} {key key' : Key} {s t : Nat}

theorem toNat_shiftLeft (word : UInt64) :
    (word <<< (16 : UInt64)).toNat = word.toNat % 2 ^ 48 * 2 ^ 16 := by
  rw [UInt64.toNat_shiftLeft, Nat.shiftLeft_eq]
  have h16 : (16 : UInt64).toNat % 64 = 16 := rfl
  rw [h16]
  omega

/-- The mask leaves nothing of the data center, and the assertion holds. -/
theorem bigFileBaseCacheKey_eq (loc : StorageFileLocation) :
    loc.bigFileBaseCacheKey =
      if loc.type = .document then some ⟨kDocumentBaseCacheTag ||| loc.id >>> 48, loc.id <<< 16⟩
      else none := by
  have hmasked : loc.dcId.toUInt64 <<< (16 : UInt64) &&& kDocumentBaseCacheMask = 0 := by
    apply UInt64.toNat_inj.mp
    rw [UInt64.toNat_and, toNat_shiftLeft, UInt64.toNat_zero]
    exact Bits.mul_and (by decide)
  have hassert : loc.id <<< (16 : UInt64) &&& 0xFF = 0 := by
    apply UInt64.toNat_inj.mp
    rw [UInt64.toNat_and, toNat_shiftLeft, UInt64.toNat_zero]
    exact Bits.mul_and (by decide)
  rw [bigFileBaseCacheKey]
  cases htype : loc.type with
  | document =>
    dsimp only
    rw [if_pos hassert, if_pos rfl, hmasked, UInt64.or_zero]
  | _ => simp

theorem toNat_sliceKey (h : a.bigFileBaseCacheKey = some key) (hs : s < 2 ^ 16) :
    (sliceKey key s).high.toNat = 2 ^ 16 + a.id.toNat / 2 ^ 48 ∧
      (sliceKey key s).low.toNat = a.id.toNat % 2 ^ 48 * 2 ^ 16 + s := by
  have hid := a.id.toNat_lt
  rw [bigFileBaseCacheKey_eq] at h
  split at h
  · cases h
    have hshift : (a.id >>> (48 : UInt64)).toNat = a.id.toNat / 2 ^ 48 := by
      rw [UInt64.toNat_shiftRight, Nat.shiftRight_eq_div_pow]
      rfl
    have htag : kDocumentBaseCacheTag.toNat = 1 * 2 ^ 16 := rfl
    constructor
    · rw [sliceKey, UInt64.toNat_or, hshift, htag, Bits.mul_or (by omega), Nat.one_mul]
    · rw [sliceKey, UInt64.toNat_add, toNat_shiftLeft, UInt64.toNat_ofNat']
      omega
  · cases h

theorem sliceKey_zero (key : Key) : sliceKey key 0 = key := by
  simp [sliceKey]

theorem Key.eq_iff {key key' : Key} :
    key = key' ↔ key.high.toNat = key'.high.toNat ∧ key.low.toNat = key'.low.toNat := by
  constructor
  · rintro rfl
    exact ⟨rfl, rfl⟩
  · intro ⟨hhigh, hlow⟩
    calc key = ⟨key.high, key.low⟩ := rfl
      _ = key' := by rw [UInt64.toNat_inj.mp hhigh, UInt64.toNat_inj.mp hlow]

/-- Slices of two documents. -/
theorem sliceKey_eq_iff (ha : a.bigFileBaseCacheKey = some key)
    (hb : b.bigFileBaseCacheKey = some key') (hs : s < 2 ^ 16) (ht : t < 2 ^ 16) :
    sliceKey key s = sliceKey key' t ↔ a.id = b.id ∧ s = t := by
  obtain ⟨hhigh, hlow⟩ := toNat_sliceKey ha hs
  obtain ⟨hhigh', hlow'⟩ := toNat_sliceKey hb ht
  rw [Key.eq_iff, hhigh, hlow, hhigh', hlow', ← UInt64.toNat_inj]
  omega

theorem baseKey_ne_iff (ha : a.bigFileBaseCacheKey = some key)
    (hb : b.bigFileBaseCacheKey = some key') : key ≠ key' ↔ a.id ≠ b.id := by
  have hslices := sliceKey_eq_iff ha hb (s := 0) (t := 0) (by omega) (by omega)
  rw [sliceKey_zero, sliceKey_zero] at hslices
  simp [hslices]

theorem sliceKeys_ne_iff (ha : a.bigFileBaseCacheKey = some key)
    (hb : b.bigFileBaseCacheKey = some key') :
    (∀ s < 2 ^ 16, ∀ t < 2 ^ 16, sliceKey key s ≠ sliceKey key' t) ↔ a.id ≠ b.id := by
  constructor
  · intro h hid
    exact h 0 (by omega) 0 (by omega)
      ((sliceKey_eq_iff ha hb (by omega) (by omega)).mpr ⟨hid, rfl⟩)
  · intro hid s hs t ht h
    exact hid ((sliceKey_eq_iff ha hb hs ht).mp h).1

/-- The tag of a slice is a field of one. -/
theorem sliceKey_ne_cacheKey_iff (ha : a.bigFileBaseCacheKey = some key) (hs : s < 2 ^ 16) :
    sliceKey key s ≠ c.cacheKey ↔
      ¬(c.field = 1 ∧ a.id.toNat / 2 ^ 48 = c.kind * 2 ^ 8 + c.dcByte ∧
        a.id.toNat % 2 ^ 48 * 2 ^ 16 + s = c.name.toNat) := by
  obtain ⟨hhigh, hlow⟩ := toNat_sliceKey ha hs
  obtain ⟨hfields, hname⟩ := cacheKey_fields c
  have hid := a.id.toNat_lt
  have hkind := @kind_lt c
  have hdc := @dcByte_lt c
  rw [ne_eq, not_iff_not, Key.eq_iff, hhigh, hlow, hfields, hname]
  omega

/-! ### Keys of other kinds -/

/-- The key of a slice has no tag that other kinds have. -/
theorem toNat_sliceKey_high (h : a.bigFileBaseCacheKey = some key) (hs : s < 2 ^ 16) :
    2 ^ 16 ≤ (sliceKey key s).high.toNat ∧ (sliceKey key s).high.toNat < 2 ^ 17 := by
  obtain ⟨hhigh, -⟩ := toNat_sliceKey h hs
  have hid := a.id.toNat_lt
  omega

theorem sliceKey_ne_documentThumbCacheKey (h : a.bigFileBaseCacheKey = some key)
    (hs : s < 2 ^ 16) (dcId : Int32) (id : UInt64) :
    sliceKey key s ≠ documentThumbCacheKey dcId id := by
  intro heq
  have hle := (toNat_sliceKey_high h hs).1
  have htag : kDocumentThumbCacheTag.toNat = 2 * 2 ^ 8 := rfl
  have hthumb : (documentThumbCacheKey dcId id).high.toNat = _ := toNat_lower htag rfl
  rw [heq, hthumb] at hle
  omega

/-- A tag of a hashed key is above all the bits of a slice. -/
theorem sliceKey_ne_of_tag {tag rest rest' low : UInt64} (h : a.bigFileBaseCacheKey = some key)
    (hs : s < 2 ^ 16) (htag : 2 ^ 17 ≤ tag.toNat) :
    sliceKey key s ≠ ⟨tag ||| rest ||| rest', low⟩ := by
  intro heq
  have hlt := (toNat_sliceKey_high h hs).2
  rw [heq, UInt64.toNat_or, UInt64.toNat_or] at hlt
  have hle := @Nat.left_le_or tag.toNat rest.toNat
  have hle' := @Nat.left_le_or (tag.toNat ||| rest.toNat) rest'.toNat
  omega

theorem cacheKeys_apart_iff (sha256 : List UInt8 → List UInt8) :
    (∀ a b : StorageFileLocation, a.dcId ≤ 255 → b.dcId ≤ 255 → a.DifferentFiles b →
      (a.cacheKey ≠ b.cacheKey ↔ ¬(a.type = .takeout ∧ b.type = .takeout))) ∧
    (∀ (a b : StorageFileLocation) (key key' : Key), a.bigFileBaseCacheKey = some key →
      b.bigFileBaseCacheKey = some key' →
        (key ≠ key' ↔ a.id ≠ b.id) ∧
        ((∀ s < 2 ^ 16, ∀ t < 2 ^ 16, sliceKey key s ≠ sliceKey key' t) ↔ a.id ≠ b.id)) ∧
    ∀ (a : StorageFileLocation) (key : Key) (s : Nat), a.bigFileBaseCacheKey = some key →
      s < 2 ^ 16 →
        (∀ c : StorageFileLocation, sliceKey key s ≠ c.cacheKey ↔
          ¬(c.field = 1 ∧ a.id.toNat / 2 ^ 48 = c.kind * 2 ^ 8 + c.dcByte ∧
            a.id.toNat % 2 ^ 48 * 2 ^ 16 + s = c.name.toNat)) ∧
        (∀ dcId id, sliceKey key s ≠ documentThumbCacheKey dcId id) ∧
        (∀ url, sliceKey key s ≠ urlCacheKey sha256 url) ∧
        (∀ cTestMode url, sliceKey key s ≠ webDocumentCacheKey sha256 cTestMode url) ∧
        ∀ location, sliceKey key s ≠ geoPointCacheKey location := by
  refine ⟨fun a b ha hb h => cacheKey_ne_iff ha hb h, fun a b key key' ha hb =>
    ⟨baseKey_ne_iff ha hb, sliceKeys_ne_iff ha hb⟩, fun a key s ha hs => ?_⟩
  exact ⟨fun c => sliceKey_ne_cacheKey_iff ha hs,
    fun dcId id => sliceKey_ne_documentThumbCacheKey ha hs dcId id,
    fun url => sliceKey_ne_of_tag ha hs (by decide),
    fun cTestMode url => sliceKey_ne_of_tag ha hs (by decide),
    fun location => sliceKey_ne_of_tag ha hs (by decide)⟩

theorem cacheKeys_apart_documents :
    cacheKey { dcId := 1, type := .document, id := 5 } ≠
      cacheKey { dcId := 2, type := .document, id := 5 } :=
  ((cacheKeys_apart_iff fun bytes => bytes).1 { dcId := 1, type := .document, id := 5 }
    { dcId := 2, type := .document, id := 5 } (by decide) (by decide)
    (.inr (.inl (by decide)))).mpr (by decide)

/-- The documents of one id have one base key, and a slice may have the key of an old photo. -/
theorem cacheKeys_meet :
    bigFileBaseCacheKey { dcId := 1, type := .document, id := 5 } =
        bigFileBaseCacheKey { dcId := 2, type := .document, id := 5 } ∧
      (bigFileBaseCacheKey { dcId := 1, type := .document, id := 0x0301000000000001 }).map
          (sliceKey · 0) =
        some (cacheKey { dcId := 1, type := .legacy, localId := 1, volumeId := 0x10000 }) := by
  decide

end TelegramClient.Ui.StorageFileLocation
