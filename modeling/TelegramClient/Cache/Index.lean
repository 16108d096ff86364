import Mathlib
import TelegramClient.Cache.BinlogReader
import TelegramClient.Lib.TreeMap

/-! What the database keeps in memory of its entries, and how a record of the
binlog changes it. The statistics are counted along with every change. -/

namespace TelegramClient.Cache

instance : Ord Key := ⟨compareLex (compareOn Key.high) (compareOn Key.low)⟩

instance : Std.TransOrd Key :=
  inferInstanceAs (Std.TransCmp (compareLex (compareOn Key.high) (compareOn Key.low)))

instance : Std.LawfulEqOrd Key where
  eq_of_compare {a b} h := by
    obtain ⟨hhigh, hlow⟩ := Ordering.then_eq_eq.mp h
    cases a
    cases b
    rw [Key.mk.injEq]
    exact ⟨Std.LawfulEqCmp.eq_of_compare hhigh, Std.LawfulEqCmp.eq_of_compare hlow⟩

structure Entry where
  useTime : UInt64 := 0
  size : Nat := 0
  checksum : UInt32 := 0
  place : PlaceId := 0
  tag : UInt8 := 0
  deriving DecidableEq, Repr

def Entry.withUseTime (useTime : UInt64) (entry : Entry) : Entry := { entry with useTime }

structure TaggedSummary where
  count : Nat := 0
  totalSize : Nat := 0
  deriving DecidableEq, Repr

/-- The fields of the database object that replaying a binlog fills. -/
structure Index where
  time : EstimatedTimePoint := {}
  map : Std.ExtTreeMap Key Entry := ∅
  binlogExcessLength : Nat := 0
  totalSize : Nat := 0
  minimalEntryTime : UInt64 := 0
  entriesWithMinimalTimeCount : Nat := 0
  taggedStats : Std.ExtTreeMap UInt8 TaggedSummary := ∅

def subtract (a b : Nat) : Run Nat := if a < b then .error .underflow else .ok (a - b)

/-- Adds the difference of two entries, by their sizes; an entry of no size is
none. -/
def TaggedSummary.change (s : TaggedSummary) (was now : Nat) : Run TaggedSummary := do
  let count ← subtract (s.count + if now ≠ 0 then 1 else 0) (if was ≠ 0 then 1 else 0)
  let totalSize ← subtract (s.totalSize + now) was
  return { count, totalSize }

def changeTag (stats : Std.ExtTreeMap UInt8 TaggedSummary) (tag : UInt8) (was now : Nat) :
    Run (Std.ExtTreeMap UInt8 TaggedSummary) :=
  if tag = 0 then .ok stats
  else
    match (stats.getD tag {}).change was now with
    | .error stop => .error stop
    | .ok summary => .ok (stats.insert tag summary)

namespace Index

def updateStats (idx : Index) (was now : Entry) : Run Index := do
  let totalSize ← subtract (idx.totalSize + now.size) was.size
  let taggedStats ←
    if now.tag = was.tag then changeTag idx.taggedStats now.tag was.size now.size
    else changeTag idx.taggedStats now.tag 0 now.size >>= (changeTag · was.tag was.size 0)
  return { idx with totalSize, taggedStats }

def dropMinimal (idx : Index) : Run Index :=
  if idx.entriesWithMinimalTimeCount = 0 then .error .assertion
  else do
    let count ← subtract idx.entriesWithMinimalTimeCount 1
    return { idx with
      entriesWithMinimalTimeCount := count
      minimalEntryTime := if count = 0 then 0 else idx.minimalEntryTime }

/-- The part of `setMapEntry` that follows the minimal time of the entries. -/
def followMinimal (idx : Index) (already entry : Entry) : Run Index :=
  if entry.useTime ≠ 0 ∧ (entry.useTime < idx.minimalEntryTime ∨ idx.minimalEntryTime = 0) then
    .ok { idx with minimalEntryTime := entry.useTime, entriesWithMinimalTimeCount := 1 }
  else if idx.minimalEntryTime ≠ 0 ∧ already.useTime ≠ entry.useTime then
    if entry.useTime = idx.minimalEntryTime then
      if idx.entriesWithMinimalTimeCount = 0 then .error .assertion
      else .ok { idx with entriesWithMinimalTimeCount := idx.entriesWithMinimalTimeCount + 1 }
    else if already.useTime = idx.minimalEntryTime then idx.dropMinimal
    else .ok idx
  else .ok idx

def setMapEntry (tracked : Bool) (idx : Index) (key : Key) (entry : Entry) : Run Index := do
  let already := idx.map.getD key {}
  let idx ← idx.updateStats already entry
  let excess := if already.size ≠ 0 then sizeofStore tracked else 0
  let idx ← { idx with
    binlogExcessLength := idx.binlogExcessLength + excess }.followMinimal already entry
  return { idx with map := idx.map.insert key entry }

def eraseMapEntry (idx : Index) (key : Key) : Run Index :=
  match idx.map[key]? with
  | none => .ok idx
  | some entry => do
    let idx ← idx.updateStats entry {}
    let idx ←
      if idx.minimalEntryTime ≠ 0 ∧ entry.useTime = idx.minimalEntryTime then idx.dropMinimal
      else .ok idx
    return { idx with map := idx.map.erase key }

def applyTimePoint (idx : Index) (time : EstimatedTimePoint) : Index :=
  if idx.time.relative < time.relative then { idx with time } else idx

def setUseTime (idx : Index) (key : Key) (useTime : UInt64) : Index :=
  { idx with map := idx.map.modify key (Entry.withUseTime useTime) }

end Index

def Store.toEntry (s : Store) (useTime : UInt64) : Entry :=
  { useTime, size := s.getSize, checksum := s.checksum, place := s.place, tag := s.tag }

section

variable (settings : Settings)

/-- Without tracking an entry takes the time of the database, with it the time of
its record. -/
def processRecordStore (idx : Index) (record : Store) : Run (Index × Bool) :=
  if record.getSize = 0 ∨ settings.maxDataSize < record.getSize then .ok (idx, false)
  else do
    let (idx, useTime) :=
      if settings.trackEstimatedTime then (idx.applyTimePoint record.time, record.time.relative)
      else (idx, idx.time.relative)
    let idx ← idx.setMapEntry settings.trackEstimatedTime record.key (record.toEntry useTime)
    return (idx, true)

/-- The records before one that is refused stay applied. -/
def processRecordMultiStore (idx : Index) : List Store → Run (Index × Bool)
  | [] => .ok (idx, true)
  | record :: parts =>
    match processRecordStore settings idx record with
    | .error stop => .error stop
    | .ok (idx, false) => .ok (idx, false)
    | .ok (idx, true) => processRecordMultiStore idx parts

def processRecordMultiRemove (idx : Index) (keys : List Key) : Run (Index × Bool) := do
  let idx := { idx with binlogExcessLength := idx.binlogExcessLength + sizeofHead }
  let idx ← keys.foldlM (fun idx key =>
    { idx with binlogExcessLength := idx.binlogExcessLength + sizeofKey }.eraseMapEntry key) idx
  return (idx, true)

def processRecordMultiAccess (idx : Index) (time : EstimatedTimePoint) (keys : List Key) :
    Run (Index × Bool) :=
  if settings.trackEstimatedTime = false then .error .assertion
  else
    let idx := idx.applyTimePoint time
    let idx := { idx with binlogExcessLength := idx.binlogExcessLength + sizeofHead }
    let idx := keys.foldl (fun idx key =>
      { idx with binlogExcessLength := idx.binlogExcessLength + sizeofKey }.setUseTime key
        time.relative) idx
    .ok (idx, true)

def processRecord (idx : Index) : Record → Run (Index × Bool)
  | .store record => processRecordStore settings idx record
  | .multiStore parts => processRecordMultiStore settings idx parts
  | .multiRemove keys => processRecordMultiRemove idx keys
  | .multiAccess time keys => processRecordMultiAccess settings idx time keys

/-- The handlers as the reader calls them. -/
def handleRecord (idx : Index) (bytes : List UInt8) : Run (Index × Bool) :=
  match decodeRecord settings.trackEstimatedTime bytes with
  | .error stop => .error stop
  | .ok record => processRecord settings idx record

end

end TelegramClient.Cache
