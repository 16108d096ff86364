import TelegramClient.Data.Peers
import TelegramClient.Storage.DataStream

/-! Locations of files (`ui/image/image_location.cpp`): as they are kept, as they are saved and as
they are requested. -/

namespace TelegramClient.Ui

open Data DataStream

/-- A `QByteArray`: its size is an `int`. -/
structure Bytes where
  data : List UInt8 := []
  length_lt : data.length < 2 ^ 31 := by decide
  deriving DecidableEq

/-- No array is longer. -/
def Bytes.ofList (bytes : List UInt8) : Bytes where
  data := bytes.take (2 ^ 31 - 1)
  length_lt := by
    rw [List.length_take]
    omega

inductive LocationType where
  | legacy
  | encrypted
  | document
  | secure
  | takeout
  | photo
  | peerPhoto
  | stickerSetThumb
  deriving DecidableEq

def LocationType.toUInt8 : LocationType → UInt8
  | .legacy => 0x00
  | .encrypted => 0x01
  | .document => 0x02
  | .secure => 0x03
  | .takeout => 0x04
  | .photo => 0x05
  | .peerPhoto => 0x06
  | .stickerSetThumb => 0x07

/-- Other values are of no type, and a location that has one is not valid. -/
def LocationType.ofUInt8 (value : UInt8) : Option LocationType :=
  [.legacy, .encrypted, .document, .secure, .takeout, .photo, .peerPhoto, .stickerSetThumb].find?
    fun type => type.toUInt8 == value

structure StorageFileLocation where
  dcId : UInt16 := 0
  type : LocationType := .legacy
  sizeLetter : UInt8 := 0
  localId : Int32 := 0
  id : UInt64 := 0
  accessHash : UInt64 := 0
  volumeId : UInt64 := 0
  fileReference : Bytes := {}
  deriving DecidableEq

/-! ### Requests -/

inductive InputPeer where
  | inputPeerEmpty
  | inputPeerSelf
  | inputPeerChat (chatId : Int32)
  | inputPeerUser (userId : Int32) (accessHash : UInt64)
  | inputPeerChannel (channelId : Int32) (accessHash : UInt64)
  deriving DecidableEq

inductive InputStickerSet where
  | inputStickerSetEmpty
  | inputStickerSetID (id accessHash : UInt64)
  | inputStickerSetShortName (shortName : Bytes)
  deriving DecidableEq

inductive InputFileLocation where
  | inputFileLocation (volumeId : UInt64) (localId : Int32) (secret : UInt64) (fileReference : Bytes)
  | inputEncryptedFileLocation (id accessHash : UInt64)
  | inputDocumentFileLocation (id accessHash : UInt64) (fileReference : Bytes)
      (thumbSize : List UInt8)
  | inputSecureFileLocation (id accessHash : UInt64)
  | inputTakeoutFileLocation
  | inputPhotoFileLocation (id accessHash : UInt64) (fileReference : Bytes) (thumbSize : List UInt8)
  | inputPeerPhotoFileLocation (big : Bool) (peer : InputPeer) (volumeId : UInt64) (localId : Int32)
  | inputStickerSetThumb (stickerset : InputStickerSet) (volumeId : UInt64) (localId : Int32)
  deriving DecidableEq

def generateInputPeer (id accessHash : UInt64) (self : Int32) : InputPeer :=
  if id = 0 then .inputPeerEmpty
  else if id = peerFromUser self then .inputPeerSelf
  else if peerIsUser id then .inputPeerUser (peerToBareInt id) accessHash
  else if peerIsChat id then .inputPeerChat (peerToBareInt id)
  else if peerIsChannel id then .inputPeerChannel (peerToBareInt id) accessHash
  else .inputPeerEmpty

namespace StorageFileLocation

/-- The id and the access hash of a peer. -/
def readPeer (self : Int32) : InputPeer → UInt64 × UInt64
  | .inputPeerEmpty => (0, 0)
  | .inputPeerSelf => (peerFromUser self, 0)
  | .inputPeerChat chatId => (peerFromChat chatId, 0)
  | .inputPeerUser userId accessHash => (peerFromUser userId, accessHash)
  | .inputPeerChannel channelId accessHash => (peerFromChannel channelId, accessHash)

/-- The constructor. It fails for the short name of a sticker set. -/
def ofTl (dcId self : Int32) : InputFileLocation → Option StorageFileLocation
  | .inputFileLocation volumeId localId secret fileReference =>
    some { dcId := dcId.toUInt32.toUInt16, type := .legacy, volumeId, localId, accessHash := secret
           fileReference }
  | .inputEncryptedFileLocation id accessHash =>
    some { dcId := dcId.toUInt32.toUInt16, type := .encrypted, id, accessHash }
  | .inputDocumentFileLocation id accessHash fileReference thumbSize =>
    some { dcId := dcId.toUInt32.toUInt16, type := .document, id, accessHash, fileReference
           sizeLetter := thumbSize.headD 0 }
  | .inputSecureFileLocation id accessHash =>
    some { dcId := dcId.toUInt32.toUInt16, type := .secure, id, accessHash }
  | .inputTakeoutFileLocation => some { dcId := dcId.toUInt32.toUInt16, type := .takeout }
  | .inputPhotoFileLocation id accessHash fileReference thumbSize =>
    some { dcId := dcId.toUInt32.toUInt16, type := .photo, id, accessHash, fileReference
           sizeLetter := thumbSize.headD 0 }
  | .inputPeerPhotoFileLocation big peer volumeId localId =>
    some { dcId := dcId.toUInt32.toUInt16, type := .peerPhoto, id := (readPeer self peer).1
           accessHash := (readPeer self peer).2, volumeId, localId
           sizeLetter := if big then 0x63 else 0x61 }
  | .inputStickerSetThumb stickerset volumeId localId =>
    match stickerset with
    | .inputStickerSetEmpty =>
      some { dcId := dcId.toUInt32.toUInt16, type := .stickerSetThumb, volumeId, localId }
    | .inputStickerSetID id accessHash =>
      some { dcId := dcId.toUInt32.toUInt16, type := .stickerSetThumb, id, accessHash, volumeId
             localId }
    | .inputStickerSetShortName _ => none

variable (loc : StorageFileLocation)

/-- `dcId()`, an `int32`. -/
def dcIdInt : Int32 := loc.dcId.toUInt32.toInt32

def tl (self : Int32) : InputFileLocation :=
  match loc.type with
  | .legacy => .inputFileLocation loc.volumeId loc.localId loc.accessHash loc.fileReference
  | .encrypted => .inputSecureFileLocation loc.id loc.accessHash
  | .document =>
    .inputDocumentFileLocation loc.id loc.accessHash loc.fileReference
      (if loc.sizeLetter ≠ 0 then [loc.sizeLetter] else [])
  | .secure => .inputSecureFileLocation loc.id loc.accessHash
  | .takeout => .inputTakeoutFileLocation
  | .photo => .inputPhotoFileLocation loc.id loc.accessHash loc.fileReference [loc.sizeLetter]
  | .peerPhoto =>
    .inputPeerPhotoFileLocation (loc.sizeLetter = 0x63)
      (generateInputPeer loc.id loc.accessHash self) loc.volumeId loc.localId
  | .stickerSetThumb =>
    .inputStickerSetThumb (.inputStickerSetID loc.id loc.accessHash) loc.volumeId loc.localId

def valid : Bool :=
  match loc.type with
  | .legacy => loc.dcId ≠ 0 && loc.volumeId ≠ 0 && loc.localId ≠ 0
  | .encrypted | .secure | .document => loc.dcId ≠ 0 && loc.id ≠ 0
  | .photo => loc.dcId ≠ 0 && loc.id ≠ 0 && loc.sizeLetter ≠ 0
  | .takeout => true
  | .peerPhoto | .stickerSetThumb => loc.dcId ≠ 0 && loc.id ≠ 0

/-- `operator==` -/
def equals (a b : StorageFileLocation) : Bool :=
  if a.valid ≠ b.valid then false
  else if !a.valid then true
  else if a.type ≠ b.type then false
  else
    match a.type with
    | .legacy => a.dcId = b.dcId && a.volumeId = b.volumeId && a.localId = b.localId
    | .encrypted | .secure => a.dcId = b.dcId && a.id = b.id
    | .photo | .document => a.dcId = b.dcId && a.id = b.id && a.sizeLetter = b.sizeLetter
    | .takeout => true
    | .peerPhoto =>
      a.dcId = b.dcId && a.volumeId = b.volumeId && a.localId = b.localId && a.id = b.id &&
        a.sizeLetter = b.sizeLetter
    | .stickerSetThumb =>
      a.dcId = b.dcId && a.volumeId = b.volumeId && a.localId = b.localId && a.id = b.id

/-! ### Saved locations -/

def serialize : List UInt8 :=
  if loc.valid then
    writeUInt16 loc.dcId ++ writeUInt8 loc.type.toUInt8 ++ writeUInt8 loc.sizeLetter ++
      writeInt32 loc.localId ++ writeUInt64 loc.id ++ writeUInt64 loc.accessHash ++
      writeUInt64 loc.volumeId ++ writeBytes loc.fileReference.data
  else []

/-- What is read from the stream, if the type is one. -/
def readLocation : Reader (Option StorageFileLocation) := do
  let dcId ← readUInt16
  let type ← readUInt8
  let sizeLetter ← readUInt8
  let localId ← readInt32
  let id ← readUInt64
  let accessHash ← readUInt64
  let volumeId ← readUInt64
  let fileReference ← readByteArray
  return (LocationType.ofUInt8 type).map fun type =>
    { dcId, type, sizeLetter, localId, id, accessHash, volumeId
      fileReference := .ofList fileReference }

def fromSerialized (serialized : List UInt8) : Option StorageFileLocation :=
  if serialized = [] then some {}
  else
    match readLocation ⟨serialized, true⟩ with
    | some (some result, s) => if s.ok && result.valid then some result else none
    | _ => none

end StorageFileLocation

structure StorageImageLocation where
  file : StorageFileLocation := {}
  width : Int32 := 0
  height : Int32 := 0
  deriving DecidableEq

namespace StorageImageLocation

def serialize (x : StorageImageLocation) : List UInt8 :=
  let result := x.file.serialize
  if result ≠ [] ∨ x.width > 0 ∨ x.height > 0 then
    result ++ writeInt32 x.width ++ writeInt32 x.height
  else result

/-- The size of the dimensions. -/
def my : Nat := 8

def fromSerialized (serialized : List UInt8) : Option StorageImageLocation := do
  let file ← StorageFileLocation.fromSerialized serialized
  let full := serialized.length
  if full = 0 then return { file }
  else if full ≥ my then
    let (width, s) ← readInt32 ⟨serialized.drop (full - my), true⟩
    let (height, s) ← readInt32 s
    if s.ok then return { file, width, height } else none
  else none

end StorageImageLocation

/-! ### Saved locations are restored -/

theorem ofUInt8_toUInt8 (type : LocationType) : LocationType.ofUInt8 type.toUInt8 = some type := by
  cases type <;> rfl

theorem Bytes.ofList_data (bytes : Bytes) : Bytes.ofList bytes.data = bytes := by
  obtain ⟨data, hlt⟩ := bytes
  simp only [Bytes.ofList, Bytes.mk.injEq]
  exact List.take_of_length_le (by omega)

namespace StorageFileLocation

variable {loc : StorageFileLocation}

theorem serialize_eq_nil_iff : loc.serialize = [] ↔ loc.valid = false := by
  rw [serialize]
  cases loc.valid with
  | true =>
    simp [writeUInt16, writeNumber, leBytes]
  | false => simp

theorem readLocation_serialize (h : loc.valid) (rest : List UInt8) :
    readLocation ⟨loc.serialize ++ rest, true⟩ = some (some loc, ⟨rest, true⟩) := by
  rw [serialize, if_pos h]
  simp only [List.append_assoc]
  rw [readLocation, bind_some (readUInt16_append _ _ _), bind_some (readUInt8_append _ _ _),
    bind_some (readUInt8_append _ _ _), bind_some (readInt32_append _ _ _),
    bind_some (readUInt64_append _ _ _), bind_some (readUInt64_append _ _ _),
    bind_some (readUInt64_append _ _ _),
    bind_some (readByteArray_append loc.fileReference.length_lt _), ofUInt8_toUInt8]
  simp only [Option.map_some, Bytes.ofList_data]
  rfl

theorem fromSerialized_serialize (h : loc.valid) (rest : List UInt8) :
    fromSerialized (loc.serialize ++ rest) = some loc := by
  have hne : loc.serialize ++ rest ≠ [] := by
    intro hnil
    rw [List.append_eq_nil_iff, serialize_eq_nil_iff, h] at hnil
    cases hnil.1
  rw [fromSerialized, if_neg hne, readLocation_serialize h]
  simp [h]

/-- Eight bytes end in front of the id. -/
theorem fromSerialized_eight {bytes : List UInt8} (h : bytes.length = 8) :
    fromSerialized bytes = none := by
  match bytes, h with
  | [b0, b1, b2, b3, b4, b5, b6, b7], _ =>
    have hread : ∃ result s, readLocation ⟨[b0, b1, b2, b3, b4, b5, b6, b7], true⟩ =
        some (result, s) ∧ s.ok = false := ⟨_, _, rfl, rfl⟩
    obtain ⟨result, s, hread, hok⟩ := hread
    rw [fromSerialized, if_neg (by simp), hread]
    cases result with
    | none => rfl
    | some result => simp [hok]

theorem equals_self (loc : StorageFileLocation) : loc.equals loc := by
  cases hvalid : loc.valid with
  | false => simp [equals, hvalid]
  | true => cases htype : loc.type <;> simp [equals, hvalid, htype]

end StorageFileLocation

/-- What is restored has the same file and the same size. -/
def StorageImageLocation.RoundTrips (x : StorageImageLocation) : Prop :=
  ∃ y, fromSerialized x.serialize = some y ∧ y.file.equals x.file ∧ y.width = x.width ∧
    y.height = x.height

theorem StorageImageLocation.fromSerialized_valid {x : StorageImageLocation} (h : x.file.valid) :
    fromSerialized x.serialize = some x := by
  have hne : x.file.serialize ≠ [] := by
    intro hnil
    rw [StorageFileLocation.serialize_eq_nil_iff, h] at hnil
    cases hnil
  have hlength : (writeInt32 x.width ++ writeInt32 x.height).length = my := by
    rw [List.length_append, writeInt32, writeInt32, length_writeUInt32, length_writeUInt32, my]
  have hserialize : x.serialize = x.file.serialize ++ (writeInt32 x.width ++ writeInt32 x.height) := by
    rw [serialize, if_pos (.inl hne), List.append_assoc]
  have hfull : x.serialize.length = x.file.serialize.length + my := by
    rw [hserialize, List.length_append, hlength]
  have hmy : my = 8 := rfl
  have hdrop : x.serialize.drop (x.serialize.length - my) =
      writeInt32 x.width ++ (writeInt32 x.height ++ []) := by
    rw [hfull, Nat.add_sub_cancel, hserialize, List.drop_left, List.append_nil]
  have hread : StorageFileLocation.fromSerialized x.serialize = some x.file := by
    rw [hserialize, StorageFileLocation.fromSerialized_serialize h]
  have hpos : ¬x.serialize.length = 0 := by omega
  rw [fromSerialized, hread]
  simp only [Option.bind_eq_bind, Option.bind_some, if_neg hpos]
  rw [if_pos (by omega), hdrop, readInt32_append, Option.bind_some, readInt32_append]
  simp

theorem StorageImageLocation.serialize_invalid {x : StorageImageLocation} (h : x.file.valid = false) :
    x.serialize =
      if x.width > 0 ∨ x.height > 0 then writeInt32 x.width ++ writeInt32 x.height else [] := by
  rw [serialize, StorageFileLocation.serialize_eq_nil_iff.mpr h]
  simp

theorem StorageImageLocation.roundTrips_iff (x : StorageImageLocation) :
    x.RoundTrips ↔ x.file.valid ∨ x.width = 0 ∧ x.height = 0 := by
  cases hvalid : x.file.valid with
  | true =>
    simp only [true_or, iff_true]
    exact ⟨x, fromSerialized_valid hvalid, x.file.equals_self, rfl, rfl⟩
  | false =>
    rw [RoundTrips, serialize_invalid hvalid]
    simp only [Bool.false_eq_true, false_or]
    split
    · next hsize =>
      -- the dimensions alone are read as the file
      rw [fromSerialized, StorageFileLocation.fromSerialized_eight
        (by rw [List.length_append, writeInt32, writeInt32, length_writeUInt32, length_writeUInt32])]
      constructor
      · rintro ⟨y, hy, -⟩
        cases hy
      · intro ⟨hwidth, hheight⟩
        rw [hwidth, hheight] at hsize
        exact absurd hsize (by decide)
    · have hnil : fromSerialized [] = some {} := rfl
      rw [hnil]
      constructor
      · rintro ⟨y, hy, -, hwidth, hheight⟩
        cases hy
        exact ⟨hwidth.symm, hheight.symm⟩
      · intro ⟨hwidth, hheight⟩
        refine ⟨_, rfl, ?_, hwidth.symm, hheight.symm⟩
        have hempty : StorageFileLocation.valid {} = false := rfl
        rw [StorageFileLocation.equals, hempty, hvalid]
        rfl

namespace StorageFileLocation

theorem readPeer_generateInputPeer {id : UInt64} (h : IsPeer id) (hne : id ≠ 0)
    (accessHash : UInt64) (self : Int32) :
    (readPeer self (generateInputPeer id accessHash self)).1 = id := by
  have huser : peerIdUserShift.toNat = 0 * 2 ^ 32 := rfl
  have hchat : peerIdChatShift.toNat = 1 * 2 ^ 32 := rfl
  have hchannel : peerIdChannelShift.toNat = 2 * 2 ^ 32 := rfl
  rw [generateInputPeer, if_neg hne]
  split
  · next hself => exact hself.symm
  · obtain ⟨bareId, rfl | rfl | rfl⟩ := h
    · rw [peerIsUser, peerFromUser, hasShift_peerOfShift (by omega) huser, if_pos (by decide)]
      simp [readPeer, peerFromUser, peerToBareInt_peerOfShift huser]
    · rw [peerIsUser, peerIsChat, peerFromChat, hasShift_peerOfShift (by omega) hchat,
        hasShift_peerOfShift (by omega) hchat, if_neg (by decide), if_pos (by decide)]
      simp [readPeer, peerFromChat, peerToBareInt_peerOfShift hchat]
    · rw [peerIsUser, peerIsChat, peerIsChannel, peerFromChannel,
        hasShift_peerOfShift (by omega) hchannel, hasShift_peerOfShift (by omega) hchannel,
        hasShift_peerOfShift (by omega) hchannel, if_neg (by decide), if_neg (by decide),
        if_pos (by decide)]
      simp [readPeer, peerFromChannel, peerToBareInt_peerOfShift hchannel]

theorem toUInt16_dcIdInt (loc : StorageFileLocation) : loc.dcIdInt.toUInt32.toUInt16 = loc.dcId := by
  simp [dcIdInt]

/-- What is made of a request has the file of the location that it was made of. -/
def Requested (self : Int32) (loc : StorageFileLocation) : Prop :=
  ∃ l, ofTl loc.dcIdInt self (loc.tl self) = some l ∧ l.equals loc

theorem requested_iff (self : Int32) {loc : StorageFileLocation} (hvalid : loc.valid)
    (hpeer : loc.type = .peerPhoto → IsPeer loc.id) :
    loc.Requested self ↔ loc.type ≠ .encrypted ∧
      (loc.type = .peerPhoto → loc.sizeLetter = 0x61 ∨ loc.sizeLetter = 0x63) := by
  have hdc := loc.toUInt16_dcIdInt
  rw [Requested, tl]
  cases htype : loc.type with
  | legacy =>
    simp [valid, htype] at hvalid
    simp [ofTl, equals, valid, htype, hvalid, hdc]
  | encrypted =>
    -- the request asks for a secure file
    simp [valid, htype] at hvalid
    simp [ofTl, equals, valid, htype, hvalid, hdc]
  | document =>
    simp [valid, htype] at hvalid
    by_cases hletter : loc.sizeLetter = 0
    · simp [ofTl, equals, valid, htype, hvalid, hdc, hletter]
    · simp [ofTl, equals, valid, htype, hvalid, hdc, hletter]
  | secure =>
    simp [valid, htype] at hvalid
    simp [ofTl, equals, valid, htype, hvalid, hdc]
  | takeout => simp [ofTl, equals, valid, htype]
  | photo =>
    simp [valid, htype] at hvalid
    simp [ofTl, equals, valid, htype, hvalid, hdc]
  | peerPhoto =>
    simp [valid, htype] at hvalid
    have hid := readPeer_generateInputPeer (hpeer htype) hvalid.2 loc.accessHash self
    have hletter : (if loc.sizeLetter = 0x63 then (0x63 : UInt8) else 0x61) = loc.sizeLetter ↔
        loc.sizeLetter = 0x61 ∨ loc.sizeLetter = 0x63 := by
      split
      · next hbig => simp [hbig]
      · next hbig => simp [hbig, eq_comm]
    simp [ofTl, equals, valid, htype, hvalid, hdc, hid, hletter]
  | stickerSetThumb =>
    simp [valid, htype] at hvalid
    simp [ofTl, equals, valid, htype, hvalid, hdc]

end StorageFileLocation

theorem location_restored_iff (x : StorageImageLocation) (self : Int32)
    (loc : StorageFileLocation) :
    (x.RoundTrips ↔ x.file.valid ∨ x.width = 0 ∧ x.height = 0) ∧
      (loc.valid → (loc.type = .peerPhoto → IsPeer loc.id) →
        (loc.Requested self ↔ loc.type ≠ .encrypted ∧
          (loc.type = .peerPhoto → loc.sizeLetter = 0x61 ∨ loc.sizeLetter = 0x63))) :=
  ⟨x.roundTrips_iff, StorageFileLocation.requested_iff self⟩

theorem location_restored_iff_peerPhoto :
    StorageFileLocation.Requested 5 { dcId := 2, type := .peerPhoto, sizeLetter := 0x61, id := 7 } :=
  ((location_restored_iff {} 5 { dcId := 2, type := .peerPhoto, sizeLetter := 0x61, id := 7 }).2 rfl
    fun _ => ⟨7, .inl rfl⟩).mpr ⟨(by decide), fun _ => .inl rfl⟩

/-- The size alone is not restored, and a file of a secret chat is requested as a secure file. -/
theorem location_lost :
    ¬StorageImageLocation.RoundTrips { width := 1 } ∧
      ¬StorageFileLocation.Requested 0 { dcId := 1, type := .encrypted, id := 1 } := by
  constructor
  · rw [StorageImageLocation.roundTrips_iff]
    decide
  · rw [StorageFileLocation.requested_iff 0 rfl (fun h => by cases h)]
    decide

end TelegramClient.Ui
