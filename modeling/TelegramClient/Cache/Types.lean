import Mathlib
import TelegramClient.Lib.Framing
import TelegramClient.Lib.LittleEndian
import TelegramClient.Storage.ByteFile

/-! The records of the cache binlog and their bytes. Whether times are tracked
decides between `Store` and `StoreWithTime`; here one structure stands for both
and only the tracked format writes its time. Reserved fields are written as
zeros and never read. -/

namespace TelegramClient.Cache

structure Key where
  high : UInt64 := 0
  low : UInt64 := 0
  deriving DecidableEq, Repr

structure EstimatedTimePoint where
  relative : UInt64 := 0
  system : UInt32 := 0
  deriving DecidableEq, Repr

abbrev PlaceId := BitVec 56
abbrev EntrySize := BitVec 24

structure Store where
  tag : UInt8 := 0
  size : EntrySize := 0
  place : PlaceId := 0
  checksum : UInt32 := 0
  key : Key := {}
  time : EstimatedTimePoint := {}
  deriving DecidableEq, Repr

def Store.getSize (s : Store) : Nat := s.size.toNat

/-- The records a binlog consists of after its header. -/
inductive Record where
  | store (record : Store)
  | multiStore (parts : List Store)
  | multiRemove (keys : List Key)
  | multiAccess (time : EstimatedTimePoint) (keys : List Key)
  deriving DecidableEq, Repr

def kBundledRecordsLimit : Nat := 2 ^ 24
def kDataSizeLimit : Nat := 2 ^ 24

/-- The settings that the binlog and the entries depend on, with what
`checkSettings` expects of them. -/
structure Settings where
  maxBundledRecords : Nat := 16 * 1024
  readBlockSize : Nat := 8 * 1024 * 1024
  maxDataSize : Nat := kDataSizeLimit - 1
  writeBundleDelay : UInt64 := 15 * 60 * 1000
  staleRemoveChunk : Nat := 256
  compactAfterExcess : Int := 8 * 1024 * 1024
  compactAfterFullSize : Int := 0
  compactChunkSize : Nat := 16 * 1024
  trackEstimatedTime : Bool := true
  totalSizeLimit : Int := 1024 * 1024 * 1024
  totalTimeLimit : Nat := 31 * 24 * 60 * 60
  clearOnWrongKey : Bool := false
  staleRemoveChunk_pos : 0 < staleRemoveChunk := by decide
  maxDataSize_pos : 0 < maxDataSize := by decide
  maxDataSize_lt : maxDataSize < kDataSizeLimit := by decide
  maxBundledRecords_pos : 0 < maxBundledRecords := by decide
  maxBundledRecords_lt : maxBundledRecords < kBundledRecordsLimit := by decide
  totalSizeLimit_gt : totalSizeLimit = 0 ∨ maxDataSize < totalSizeLimit := by decide

/-! ### Sizes -/

def sizeofKey : Nat := 16
def sizeofHead : Nat := 16
def sizeofBasicHeader : Nat := 16

def sizeofStore (tracked : Bool) : Nat := if tracked then 48 else 32

/-! ### Bytes -/

def encodeKey (k : Key) : List UInt8 := leBytes 8 k.high.toNat ++ leBytes 8 k.low.toNat

def encodeTime (t : EstimatedTimePoint) : List UInt8 :=
  leBytes 8 t.relative.toNat ++ leBytes 4 t.system.toNat

def encodeStore (tracked : Bool) (s : Store) : List UInt8 :=
  [0x01, s.tag] ++ leBytes 3 s.size.toNat ++ leBytes 7 s.place.toNat ++
    leBytes 4 s.checksum.toNat ++ encodeKey s.key ++
    if tracked then encodeTime s.time ++ leBytes 4 0 else []

def encodeHead (type : UInt8) (count : Nat) (tail : List UInt8) : List UInt8 :=
  type :: leBytes 3 count ++ tail

def Record.encode (tracked : Bool) : Record → List UInt8
  | .store s => encodeStore tracked s
  | .multiStore parts =>
    encodeHead 0x02 parts.length (leBytes 12 0) ++ parts.flatMap (encodeStore tracked)
  | .multiRemove keys => encodeHead 0x03 keys.length (leBytes 12 0) ++ keys.flatMap encodeKey
  | .multiAccess time keys =>
    encodeHead 0x04 keys.length (encodeTime time) ++ keys.flatMap encodeKey

def encodeAll (tracked : Bool) (rs : List Record) : List UInt8 := rs.flatMap (Record.encode tracked)

/-- The bytes of a field of `n` bytes at an offset, as a number. -/
def field (bytes : List UInt8) (offset n : Nat) : Nat := leValue ((bytes.drop offset).take n)

def decodeKey (bytes : List UInt8) : Key :=
  { high := .ofNat (field bytes 0 8), low := .ofNat (field bytes 8 8) }

def decodeTime (bytes : List UInt8) : EstimatedTimePoint :=
  { relative := .ofNat (field bytes 0 8), system := .ofNat (field bytes 8 4) }

def decodeStore (tracked : Bool) (bytes : List UInt8) : Store where
  tag := .ofNat (field bytes 1 1)
  size := .ofNat 24 (field bytes 2 3)
  place := .ofNat 56 (field bytes 5 7)
  checksum := .ofNat (field bytes 12 4)
  key := decodeKey (bytes.drop 16)
  time := if tracked then decodeTime (bytes.drop 32) else {}

def decodeParts {α : Type} (decode : List UInt8 → α) (width : Nat) : Nat → List UInt8 → List α
  | 0, _ => []
  | count + 1, bytes => decode bytes :: decodeParts decode width count (bytes.drop width)

/-! ### Reading a record -/

def headCount (data : List UInt8) : Nat := field data 1 3

/-- A strict count is refused when it is zero. -/
def validateCount (strict : Bool) (data : List UInt8) : Option Nat :=
  if strict = true ∧ headCount data = 0 then none else some (headCount data)

def readRecordSizeMulti (data : List UInt8) (partsLimit part : Nat) (strict : Bool) : FrameSize :=
  if data.length < sizeofHead then .unknown
  else
    match validateCount strict data with
    | none => .invalid
    | some count => if count ≤ partsLimit then .known (sizeofHead + count * part) else .invalid

def readRecordSize (tracked : Bool) (partsLimit : Nat) (data : List UInt8) : FrameSize :=
  match data with
  | [] => .unknown
  | type :: _ =>
    if type = 0x01 then .known (sizeofStore tracked)
    else if type = 0x02 then readRecordSizeMulti data partsLimit (sizeofStore tracked) true
    else if type = 0x03 then readRecordSizeMulti data partsLimit sizeofKey true
    else if type = 0x04 ∧ tracked = true then readRecordSizeMulti data partsLimit sizeofKey false
    else .invalid

def decodeMulti {α : Type} (decode : List UInt8 → α) (part : Nat) (strict : Bool)
    (data : List UInt8) : Run (List α) :=
  if data.length < sizeofHead then .error .assertion
  else
    match validateCount strict data with
    | none => .error .assertion
    | some count =>
      if data.length = sizeofHead + count * part then
        .ok (decodeParts decode part count (data.drop sizeofHead))
      else .error .assertion

/-- The part of `HandleRecord` before the handler is called, with its checks of
the size of the data. -/
def decodeRecord (tracked : Bool) (data : List UInt8) : Run Record :=
  match data with
  | [] => .error .assertion
  | type :: _ =>
    if type = 0x01 then
      if data.length = sizeofStore tracked then .ok (.store (decodeStore tracked data))
      else .error .assertion
    else if type = 0x02 then
      .multiStore <$> decodeMulti (decodeStore tracked) (sizeofStore tracked) true data
    else if type = 0x03 then .multiRemove <$> decodeMulti decodeKey sizeofKey true data
    else if type = 0x04 ∧ tracked = true then
      .multiAccess (decodeTime (data.drop 4)) <$> decodeMulti decodeKey sizeofKey false data
    else .error .assertion

end TelegramClient.Cache
