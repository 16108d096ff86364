import TelegramClient.Lib.TreeMap
import TelegramClient.Storage.DataStream
import TelegramClient.Storage.LocalRoundTrip

/-! The map of the local storage (`storage/localstorage.cpp`): the keys of its files, how they are
written, and how they are read when the program starts. -/

namespace TelegramClient.Local

open DataStream Std

abbrev FileKey := UInt64

abbrev PeerId := UInt64

abbrev DraftsMap := ExtTreeMap PeerId FileKey compare

/-- The keys of single files, zero for no file. -/
structure Keys where
  locationsKey : FileKey := 0
  reportSpamStatusesKey : FileKey := 0
  trustedBotsKey : FileKey := 0
  recentStickersKeyOld : FileKey := 0
  installedStickersKey : FileKey := 0
  featuredStickersKey : FileKey := 0
  recentStickersKey : FileKey := 0
  favedStickersKey : FileKey := 0
  archivedStickersKey : FileKey := 0
  savedGifsKey : FileKey := 0
  savedPeersKey : FileKey := 0
  backgroundKeyDay : FileKey := 0
  backgroundKeyNight : FileKey := 0
  userSettingsKey : FileKey := 0
  recentHashtagsAndBotsKey : FileKey := 0
  exportSettingsKey : FileKey := 0
  deriving DecidableEq

/-- Local Storage Keys -/
inductive Lsk where
  | draft
  | draftPosition
  | legacyImages
  | locations
  | legacyStickerImages
  | legacyAudios
  | recentStickersOld
  | backgroundOld
  | userSettings
  | recentHashtagsAndBots
  | stickersOld
  | savedPeers
  | reportSpamStatuses
  | savedGifsOld
  | savedGifs
  | stickersKeys
  | trustedBots
  | favedStickers
  | exportSettings
  | background
  | selfSerialized
  deriving DecidableEq

def Lsk.value : Lsk → UInt32
  | .draft => 0x01
  | .draftPosition => 0x02
  | .legacyImages => 0x03
  | .locations => 0x04
  | .legacyStickerImages => 0x05
  | .legacyAudios => 0x06
  | .recentStickersOld => 0x07
  | .backgroundOld => 0x08
  | .userSettings => 0x09
  | .recentHashtagsAndBots => 0x0a
  | .stickersOld => 0x0b
  | .savedPeers => 0x0c
  | .reportSpamStatuses => 0x0d
  | .savedGifsOld => 0x0e
  | .savedGifs => 0x0f
  | .stickersKeys => 0x10
  | .trustedBots => 0x11
  | .favedStickers => 0x12
  | .exportSettings => 0x13
  | .background => 0x14
  | .selfSerialized => 0x15

def Lsk.all : List Lsk :=
  [.draft, .draftPosition, .legacyImages, .locations, .legacyStickerImages, .legacyAudios,
    .recentStickersOld, .backgroundOld, .userSettings, .recentHashtagsAndBots, .stickersOld,
    .savedPeers, .reportSpamStatuses, .savedGifsOld, .savedGifs, .stickersKeys, .trustedBots,
    .favedStickers, .exportSettings, .background, .selfSerialized]

/-- The type of an entry that is known. -/
def lskOf (keyType : UInt32) : Option Lsk := Lsk.all.find? fun k => k.value == keyType

/-! ### The entries -/

/-- The variables of `_readMap`. -/
structure Entries where
  selfSerialized : List UInt8 := []
  draftsMap : DraftsMap := ∅
  draftCursorsMap : DraftsMap := ∅
  draftsNotReadMap : ExtTreeMap PeerId Bool compare := ∅
  keys : Keys := {}

def readDraftKeys (insert : PeerId → FileKey → Entries → Entries) : Nat → Entries → Reader Entries
  | 0, e => pure e
  | count + 1, e => do
    let key ← readUInt64
    let p ← readUInt64
    readDraftKeys insert count (insert p key e)

/-- The files of these entries will be removed as leaked ones. -/
def skipLegacy : Nat → Reader Unit
  | 0 => pure ()
  | count + 1 => do
    let _key ← readUInt64
    let _first ← readUInt64
    let _second ← readUInt64
    let _size ← readInt32
    skipLegacy count

/-- An entry with one key. -/
def readKey (set : FileKey → Keys → Keys) (e : Entries) : Reader Entries := do
  let key ← readUInt64
  return { e with keys := set key e.keys }

def readEntry (isNightMode : Bool) (k : Lsk) (e : Entries) : Reader Entries :=
  match k with
  | .draft => do
    let count ← readUInt32
    readDraftKeys (fun p key e => { e with
      draftsMap := e.draftsMap.insert p key
      draftsNotReadMap := e.draftsNotReadMap.insert p true }) count.toNat e
  | .selfSerialized => do
    let selfSerialized ← readByteArray
    return { e with selfSerialized }
  | .draftPosition => do
    let count ← readUInt32
    readDraftKeys (fun p key e => { e with draftCursorsMap := e.draftCursorsMap.insert p key })
      count.toNat e
  | .legacyImages | .legacyStickerImages | .legacyAudios => do
    let count ← readUInt32
    skipLegacy count.toNat
    return e
  | .locations => readKey (fun key keys => { keys with locationsKey := key }) e
  | .reportSpamStatuses => readKey (fun key keys => { keys with reportSpamStatusesKey := key }) e
  | .trustedBots => readKey (fun key keys => { keys with trustedBotsKey := key }) e
  | .recentStickersOld => readKey (fun key keys => { keys with recentStickersKeyOld := key }) e
  | .backgroundOld =>
    readKey (fun key keys =>
      if isNightMode then { keys with backgroundKeyNight := key }
      else { keys with backgroundKeyDay := key }) e
  | .background => do
    let e ← readKey (fun key keys => { keys with backgroundKeyDay := key }) e
    readKey (fun key keys => { keys with backgroundKeyNight := key }) e
  | .userSettings => readKey (fun key keys => { keys with userSettingsKey := key }) e
  | .recentHashtagsAndBots =>
    readKey (fun key keys => { keys with recentHashtagsAndBotsKey := key }) e
  | .stickersOld => readKey (fun key keys => { keys with installedStickersKey := key }) e
  | .stickersKeys => do
    let e ← readKey (fun key keys => { keys with installedStickersKey := key }) e
    let e ← readKey (fun key keys => { keys with featuredStickersKey := key }) e
    let e ← readKey (fun key keys => { keys with recentStickersKey := key }) e
    readKey (fun key keys => { keys with archivedStickersKey := key }) e
  | .favedStickers => readKey (fun key keys => { keys with favedStickersKey := key }) e
  | .savedGifsOld => readKey (fun _ keys => keys) e
  | .savedGifs => readKey (fun key keys => { keys with savedGifsKey := key }) e
  | .savedPeers => readKey (fun key keys => { keys with savedPeersKey := key }) e
  | .exportSettings => readKey (fun key keys => { keys with exportSettingsKey := key }) e

/-- The loop of `_readMap`, left without a result where the reading has failed. Every turn takes
some bytes, so their number is enough. -/
def readEntries (isNightMode : Bool) : Nat → Entries → Reader Entries
  | 0, e => fun s => if s.bytes = [] then some (e, s) else none
  | bytes + 1, e => fun s =>
    if s.bytes = [] then some (e, s)
    else
      (do
        let keyType ← readUInt32
        match lskOf keyType with
        | none => fun _ => none
        | some k =>
          let e ← readEntry isNightMode k e
          let ok ← status
          stopUnless ok
          readEntries isNightMode bytes e) s

def writeKey (k : Lsk) (key : FileKey) : List UInt8 :=
  if key ≠ 0 then writeUInt32 k.value ++ writeUInt64 key else []

def writeDraftKeys (k : Lsk) (drafts : DraftsMap) : List UInt8 :=
  if drafts.isEmpty then []
  else
    writeUInt32 k.value ++ writeUInt32 (.ofNat drafts.size) ++
      drafts.toList.flatMap fun p => writeUInt64 p.2 ++ writeUInt64 p.1

/-- What `_writeMap` gives to the encrypted part of the file. -/
def mapStream (self : List UInt8) (draftsMap draftCursorsMap : DraftsMap) (keys : Keys) :
    List UInt8 :=
  (if self = [] then [] else writeUInt32 Lsk.selfSerialized.value ++ writeBytes self) ++
  writeDraftKeys .draft draftsMap ++
  writeDraftKeys .draftPosition draftCursorsMap ++
  writeKey .locations keys.locationsKey ++
  writeKey .reportSpamStatuses keys.reportSpamStatusesKey ++
  writeKey .trustedBots keys.trustedBotsKey ++
  writeKey .recentStickersOld keys.recentStickersKeyOld ++
  (if keys.installedStickersKey ≠ 0 ∨ keys.featuredStickersKey ≠ 0 ∨ keys.recentStickersKey ≠ 0 ∨
      keys.archivedStickersKey ≠ 0 then
    writeUInt32 Lsk.stickersKeys.value ++ writeUInt64 keys.installedStickersKey ++
      writeUInt64 keys.featuredStickersKey ++ writeUInt64 keys.recentStickersKey ++
      writeUInt64 keys.archivedStickersKey
  else []) ++
  writeKey .favedStickers keys.favedStickersKey ++
  writeKey .savedGifs keys.savedGifsKey ++
  writeKey .savedPeers keys.savedPeersKey ++
  (if keys.backgroundKeyDay ≠ 0 ∨ keys.backgroundKeyNight ≠ 0 then
    writeUInt32 Lsk.background.value ++ writeUInt64 keys.backgroundKeyDay ++
      writeUInt64 keys.backgroundKeyNight
  else []) ++
  writeKey .userSettings keys.userSettingsKey ++
  writeKey .recentHashtagsAndBots keys.recentHashtagsAndBotsKey ++
  writeKey .exportSettings keys.exportSettingsKey

/-! ### The files -/

/-- What the storage has from elsewhere. -/
structure Env where
  qt : Qt
  ssl : LocalCrypto
  /-- PBKDF2, for a passcode and a salt -/
  createLocalKey : List UInt8 → List UInt8 → List UInt8
  length_createLocalKey : ∀ pass salt, (createLocalKey pass salt).length = 256
  isNightMode : Bool
  /-- The user settings, as they are written. -/
  userSettings : List UInt8
  /-- Whether all settings of a file are read. -/
  readSettings : List UInt8 → Bool
  /-- The files of pictures from the web that a file of locations lists. -/
  webLocations : List UInt8 → List FileKey

/-- The time and the random bytes of a write. -/
structure Io where
  now : Nat := 0
  random : Nat → UInt8 := fun _ => 0

/-- The stream begins behind the place for the size. -/
def descriptor (data : List UInt8) : EncryptedDescriptor := ⟨[0, 0, 0, 0] ++ data, by simp⟩

variable (env : Env)

/-- `FileWriteDescriptor` with `writeEncrypted` -/
def writeEncrypted (localKey : List UInt8) (io : Io) (data : List UInt8) (copies : LocalCopies) :
    LocalCopies :=
  copies.writeFile true {} io.now
    [some (prepareEncrypted env.ssl localKey io.random (descriptor data))]

/-- The version and the stream of a file. -/
def readEncryptedFile (localKey : List UInt8) (copies : LocalCopies) :
    Option (Int × List UInt8) × LocalCopies :=
  match copies.readFile env.qt true with
  | (none, copies) => (none, copies)
  | (some (version, stream), copies) =>
    let encrypted := (readArray stream).elim [] fun p => p.1.bytes
    match decryptLocal env.ssl localKey encrypted with
    | none => (none, copies)
    | some data => (some (version, data.drop 4), copies)

/-- The storage of a user: the memory of the process, then the disk. -/
structure State where
  keys : Keys := {}
  draftsMap : DraftsMap := ∅
  draftCursorsMap : DraftsMap := ∅
  draftsNotReadMap : ExtTreeMap PeerId Bool compare := ∅
  mapChanged : Bool := false
  oldMapVersion : Int := 0
  localKey : List UInt8 := []
  passKeySalt : List UInt8 := []
  passKeyEncrypted : List UInt8 := []
  map : LocalCopies := {}
  files : FileKey → LocalCopies := fun _ => {}

namespace State

def setFile (s : State) (key : FileKey) (copies : LocalCopies) : State :=
  { s with files := Function.update s.files key copies }

def clearKey (s : State) (key : FileKey) : State := s.setFile key {}

def writeFile (s : State) (key : FileKey) (io : Io) (data : List UInt8) : State :=
  s.setFile key (writeEncrypted env s.localKey io data (s.files key))

/-- What is read, and the disk without the copy that is removed. -/
def readFile (s : State) (key : FileKey) : Option (Int × List UInt8) × State :=
  let read := readEncryptedFile env s.localKey (s.files key)
  (read.1, s.setFile key read.2)

/-! ### Writing the map -/

/-- The random bytes for new keys. -/
structure Secrets where
  pass : List UInt8
  salt : List UInt8
  passKeySalt : List UInt8
  length_passKeySalt : passKeySalt.length = 32
  keyIo : Io

/-- New keys, under an empty passcode. -/
def createKeys (secrets : Secrets) (s : State) : State :=
  let localKey := env.createLocalKey secrets.pass secrets.salt
  { s with
    localKey
    passKeySalt := secrets.passKeySalt
    passKeyEncrypted := prepareEncrypted env.ssl (env.createLocalKey [] secrets.passKeySalt)
      secrets.keyIo.random (descriptor localKey) }

/-- `_writeMap` with `WriteMapWhen::Now` -/
def writeMap (self : List UInt8) (secrets : Secrets) (io : Io) (s : State) : State :=
  if !s.mapChanged then s
  else
    let s := if s.passKeySalt = [] ∨ s.passKeyEncrypted = [] then s.createKeys env secrets else s
    let data := mapStream self s.draftsMap s.draftCursorsMap s.keys
    { s with
      map := s.map.writeFile true {} io.now
        [some s.passKeySalt, some s.passKeyEncrypted,
          some (prepareEncrypted env.ssl s.localKey io.random (descriptor data))]
      mapChanged := false }

/-! ### Reading the map -/

/-- Only the first copy of the file is removed. -/
def clearUserKey (s : State) (key : FileKey) : State :=
  s.setFile key { s.files key with copy0 := none }

def readLocations (s : State) : State :=
  match s.readFile env s.keys.locationsKey with
  | (none, s) => { s.clearKey s.keys.locationsKey with keys.locationsKey := 0 }
  | (some (_, locations), s) => (env.webLocations locations).foldl clearUserKey s

def readReportSpamStatuses (s : State) : State :=
  match s.readFile env s.keys.reportSpamStatusesKey with
  | (none, s) => { s.clearKey s.keys.reportSpamStatusesKey with keys.reportSpamStatusesKey := 0 }
  | (some _, s) => s

/-- `fresh` is what `genKey` finds. -/
def writeUserSettings (fresh : FileKey) (io : Io) (s : State) : State :=
  let s :=
    if s.keys.userSettingsKey = 0 then
      { s with keys.userSettingsKey := fresh, mapChanged := true }
    else s
  s.writeFile env s.keys.userSettingsKey io env.userSettings

def readUserSettings (fresh : FileKey) (io : Io) (s : State) : State :=
  match s.readFile env s.keys.userSettingsKey with
  | (none, s) => s.writeUserSettings env fresh io
  | (some (_, settings), s) =>
    if env.readSettings settings then s else s.writeUserSettings env fresh io

/-- The variables are taken, and the files are read that are read with the map. -/
def restore (fresh : FileKey) (io : Io) (version : Int) (e : Entries) (s : State) : State :=
  let s := { s with
    keys := e.keys
    draftsMap := e.draftsMap
    draftCursorsMap := e.draftCursorsMap
    draftsNotReadMap := e.draftsNotReadMap
    oldMapVersion := version
    mapChanged := decide (version < AppVersion) }
  let s := if s.keys.locationsKey = 0 then s else s.readLocations env
  let s := if s.keys.reportSpamStatusesKey = 0 then s else s.readReportSpamStatuses env
  s.readUserSettings env fresh io

inductive ReadMapState where
  | failed
  | passNeeded
  | done
  deriving DecidableEq

/-- `_readMap` -/
def readMap (pass : List UInt8) (fresh : FileKey) (io : Io) (s : State) : ReadMapState × State :=
  match s.map.readFile env.qt true with
  | (none, map) => (.failed, { s with map })
  | (some (version, stream), map) =>
    let s := { s with map }
    match readArrays 3 stream with
    | some ([salt, keyEncrypted, mapEncrypted], _) =>
      if salt.bytes.length ≠ 32 then (.failed, s)
      else
        match decryptLocal env.ssl (env.createLocalKey pass salt.bytes) keyEncrypted.bytes with
        | none => (.passNeeded, s)
        | some keyData =>
          let key := keyData.drop 4
          if key.length ≠ 256 then (.failed, s)
          else
            let s := { s with
              localKey := key
              passKeyEncrypted := keyEncrypted.bytes
              passKeySalt := salt.bytes }
            match decryptLocal env.ssl key mapEncrypted.bytes with
            | none => (.failed, s)
            | some data =>
              let data := data.drop 4
              match readEntries env.isNightMode data.length {} ⟨data, true⟩ with
              | none => (.failed, s)
              | some (e, _) => (.done, s.restore env fresh io version e)
    | _ => (.failed, s)

/-- The disk, when the process has ended. -/
def ended (s : State) : State := { map := s.map, files := s.files }

end State

end TelegramClient.Local
