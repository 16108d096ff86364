import Mathlib
import TelegramClient.Cache.Processing
import TelegramClient.Storage.EncryptedFile

/-! The database object, operation by operation. What it asks of the clock, the
random generator and the operating system is answered by an environment, one
number to each question. Timers and the compactor act between the operations. -/

namespace TelegramClient.Cache

/-- `order` is the order in which an unordered map lists its entries, `checksum`
the XXH32 of some bytes; a write that is cut short leaves a part of its bytes. -/
structure Environment where
  settings : Settings
  checksum : List UInt8 → UInt32
  now : Nat → UInt32
  randomPlace : Nat → PlaceId
  padding : Nat → Vector UInt8 16
  written : Nat → Option Nat
  opened : Nat → OpenResult
  removed : Nat → Bool
  versionWritten : Nat → Bool
  order : Nat → List (Key × Entry) → List (Key × Entry)
  order_perm : ∀ n entries, (order n entries).Perm entries

structure DatabaseObject extends Index where
  hasKey : Bool := false
  binlog : ByteFile := {}
  binlogOpen : Bool := false
  removing : Std.ExtTreeSet Key := ∅
  accessed : Std.ExtTreeSet Key := ∅
  stale : List Key := []
  clearingStale : Bool := false
  files : PlaceId → Option (List UInt8) := fun _ => none
  asked : Nat := 0

abbrev Db := StateT DatabaseObject Run

structure TaggedValue where
  bytes : List UInt8 := []
  tag : UInt8 := 0
  deriving DecidableEq, Repr

inductive Path where
  | version
  | binlog
  | place (place : PlaceId)
  deriving DecidableEq, Repr

inductive Error where
  | noError
  | io (path : Path)
  | wrongKey (path : Path)
  | lockFailed (path : Path)
  deriving DecidableEq, Repr

def ask {α : Type} (answer : Nat → α) : Db α := do
  let db ← get
  set { db with asked := db.asked + 1 }
  return answer db.asked

section

variable (env : Environment)

/-! ### Time -/

def getUnixtime : Db UInt32 := do return max (← ask env.now) 1

def countTimePoint : Db EstimatedTimePoint := do
  let now ← getUnixtime env
  let db ← get
  let delta := now.toNat - db.time.system.toNat
  return { relative := db.time.relative + .ofNat delta, system := now }

def countRelativeTime : Db UInt64 := do return (← countTimePoint env).relative

def pruneBeforeTime : Db UInt64 := do
  let relative ← countRelativeTime env
  let limit := UInt64.ofNat env.settings.totalTimeLimit
  return if limit ≠ 0 ∧ limit < relative then relative - limit else 0

/-- The time of a record to be written: not many different times are produced,
a small change of the time is left out. -/
def writingTime : Db EstimatedTimePoint := do
  if env.settings.trackEstimatedTime = false then return {}
  let time ← countTimePoint env
  let db ← get
  if time.relative < db.time.relative then throw .assertion
  if (time.relative - db.time.relative) * 1000 < env.settings.writeBundleDelay then return db.time
  return time

/-! ### The binlog -/

/-- `_binlog.write`, refused when the file is not open. -/
def writeBinlog (bytes : List UInt8) : Db Bool := do
  let written ← ask env.written
  let db ← get
  if db.binlogOpen = false then return false
  match written with
  | none =>
    let binlog ← db.binlog.write bytes
    set { db with binlog }
    return true
  | some n =>
    let data := db.binlog.data.take db.binlog.offset ++ bytes.take n ++
      db.binlog.data.drop (db.binlog.offset + (bytes.take n).length)
    set { db with binlog := { db.binlog with data } }
    return false

def closeBinlog : Db Unit := modify fun db => { db with binlogOpen := false }

/-- The end of `writeMultiRemove` and `writeMultiAccessBlock`. -/
def writeBundle (header list : List UInt8) : Db Error := do
  let good ← writeBinlog env header
  let good ← if good ∧ list ≠ [] then writeBinlog env list else pure good
  if good then
    modify fun db => { db with
      binlogExcessLength := db.binlogExcessLength + (header.length + list.length) }
    return .noError
  closeBinlog
  return .io .binlog

def writeMultiRemove : Db Error := do
  let db ← get
  if env.settings.maxBundledRecords < db.removing.size then throw .assertion
  if db.removing.isEmpty then return .noError
  set { db with removing := ∅ }
  writeBundle env (encodeHead 0x03 db.removing.toList.length (leBytes 12 0))
    (db.removing.toList.flatMap encodeKey)

def writeMultiRemoveLazy : Db Unit := do
  if (← get).removing.size = env.settings.maxBundledRecords then discard (writeMultiRemove env)

def writeMultiAccessBlock : Db Error := do
  if env.settings.trackEstimatedTime = false then throw .assertion
  if env.settings.maxBundledRecords < (← get).accessed.size then throw .assertion
  let time ← countTimePoint env
  let db ← get
  let list := db.accessed.toList
  set { db with
    accessed := ∅
    toIndex := list.foldl (·.setUseTime · time.relative) { db.toIndex with time } }
  writeBundle env (encodeHead 0x04 list.length (encodeTime time)) (list.flatMap encodeKey)

def writeMultiAccess : Db Error := do
  if (← get).accessed.isEmpty then return .noError
  writeMultiAccessBlock env

def writeMultiAccessLazy : Db Unit := do
  if (← get).accessed.size = env.settings.maxBundledRecords then discard (writeMultiAccess env)

def writeBundles : Db Unit := do
  discard (writeMultiRemove env)
  if env.settings.trackEstimatedTime then discard (writeMultiAccess env)

/-! ### Values -/

def readValueData (place : PlaceId) (size : Nat) : Db (List UInt8) := do
  let result ← ask env.opened
  match (← get).files place, result with
  | some data, .success =>
    let (bytes, _) ← readPadded ByteFile.read { data } size
    return if bytes.length = size then bytes else []
  | _, .lockFailed => throw .assertion
  | _, _ => return []

/-- Writes a value to the file just opened under its place. -/
def writeValueData (place : PlaceId) (bytes : List UInt8) : Db Bool := do
  let padding ← ask env.padding
  let (_, file) ← writePadded (fun f bytes => Except.map (true, ·) (ByteFile.write f bytes))
    (fun f _ => .ok f) {} bytes padding.toList
  let written ← ask env.written
  let data := match written with
    | none => file.data
    | some n => file.data.take n
  modify fun db => { db with files := Function.update db.files place (some data) }
  return written.isNone

/-- `QFile::remove`, with what is said of a file that is still there. -/
def removeFile (place : PlaceId) : Db Error := do
  if ← ask env.removed then
    modify fun db => { db with files := Function.update db.files place none }
  return if (← get).files place = none then .noError else .io (.place place)

def recordEntryAccess (key : Key) : Db Unit := do
  if env.settings.trackEstimatedTime then
    modify fun db => { db with accessed := db.accessed.insert key }
    writeMultiAccessLazy env

def remove (key : Key) : Db Error := do
  match (← get).map[key]? with
  | none => return .noError
  | some entry =>
    modify fun db => { db with removing := db.removing.insert key }
    writeMultiRemoveLazy env
    let db ← get
    let idx ← db.eraseMapEntry key
    set { db with toIndex := idx }
    removeFile env entry.place

/-- The end of `writeKeyPlaceGeneric` and `writeExistingPlaceGeneric`. -/
def writeStore (record : Store) : Db Bool := do
  if ← writeBinlog env (encodeStore env.settings.trackEstimatedTime record) then
    let db ← get
    let (idx, applied) ← processRecordStore env.settings db.toIndex record
    if applied = false then throw .assertion
    set { db with toIndex := idx }
    return true
  closeBinlog
  return false

/-- A place whose file is there is drawn again; only the last draw is asked for. -/
def freePlace : Db PlaceId := do
  let place ← ask env.randomPlace
  if (← get).files place ≠ none then throw .running
  return place

def holdsValue (already : Entry) (value : TaggedValue) (checksum : UInt32) : Db Bool := do
  if already.tag = value.tag ∧ already.size = value.bytes.length ∧ already.checksum = checksum then
    return (← readValueData env already.place value.bytes.length) = value.bytes
  else return false

/-- No place means that nothing has changed, and also that the record could not
be written. -/
def writeKeyPlace (key : Key) (value : TaggedValue) (checksum : UInt32) :
    Db (Option PlaceId) := do
  let time ← writingTime env
  if env.settings.maxDataSize < value.bytes.length then throw .assertion
  let record (place : PlaceId) : Store :=
    { tag := value.tag, size := .ofNat 24 value.bytes.length, place, checksum, key, time }
  match (← get).map[key]? with
  | some already =>
    if ← holdsValue env already value checksum then return none
    return if ← writeStore env (record already.place) then some already.place else none
  | none =>
    let place ← freePlace env
    return if ← writeStore env (record place) then some place else none

def forget (key : Key) : Db Unit :=
  modify fun db => { db with
    removing := db.removing.erase key, stale := db.stale.filter (· ≠ key) }

def put (key : Key) (value : TaggedValue) : Db Error := do
  if value.bytes = [] then return ← remove env key
  forget key
  match ← writeKeyPlace env key value (env.checksum value.bytes) with
  | none =>
    recordEntryAccess env key
    return .noError
  | some place =>
    match ← ask env.opened with
    | .failed =>
      discard (remove env key)
      return .io (.place place)
    | .lockFailed =>
      discard (remove env key)
      return .lockFailed (.place place)
    | .wrongKey => throw .assertion
    | .success =>
      if ← writeValueData env place value.bytes then return .noError
      discard (remove env key)
      return .io (.place place)

def holdsEntry (already entry : Entry) : Db Bool := do
  if already.tag = entry.tag ∧ already.size = entry.size ∧ already.checksum = entry.checksum then
    let old ← readValueData env already.place already.size
    return old = (← readValueData env entry.place entry.size)
  else return false

def writeExistingPlace (key : Key) (entry : Entry) : Db Error := do
  let time ← writingTime env
  if kDataSizeLimit ≤ entry.size then throw .assertion
  let same ← match (← get).map[key]? with
    | some already => holdsEntry env already entry
    | none => pure false
  if same then return .noError
  let record : Store :=
    { tag := entry.tag, size := .ofNat 24 entry.size, place := entry.place
      checksum := entry.checksum, key, time }
  return if ← writeStore env record then .noError else .io .binlog

protected def get (key : Key) : Db TaggedValue := do
  match (← get).map[key]? with
  | none => return {}
  | some entry =>
    let bytes ← readValueData env entry.place entry.size
    if bytes = [] ∨ env.checksum bytes ≠ entry.checksum then
      discard (remove env key)
      return {}
    recordEntryAccess env key
    return { bytes, tag := entry.tag }

def putIfEmpty (key : Key) (value : TaggedValue) : Db Error := do
  if (← get).map.contains key then return .noError
  put env key value

def copyIfEmpty (source target : Key) : Db Error := do
  if (← get).map.contains target then return .noError
  put env target (← Cache.get env source)

def moveIfEmpty (source target : Key) : Db Error := do
  if (← get).map.contains target then return .noError
  match (← get).map[source]? with
  | none => return .noError
  | some entry =>
    modify fun db => { db with removing := db.removing.insert source }
    let db ← get
    let idx ← db.eraseMapEntry source
    set { db with toIndex := idx }
    match ← writeMultiRemove env with
    | .noError =>
      forget target
      writeExistingPlace env target entry
    | error => return error

def getManyRaw (keys : List Key) : Db (List (Key × Entry)) := do
  let db ← get
  return keys.filterMap fun key => db.map[key]?.map (key, ·)

/-! ### Clearing -/

def clearStaleChunk : Db Unit := do
  let stale := (← get).stale
  if stale = [] then return
  let left := stale.length - min stale.length env.settings.staleRemoveChunk
  (stale.drop left).forM fun key => discard (remove env key)
  modify fun db => { db with
    stale := db.stale.take left, clearingStale := db.clearingStale || decide (left ≠ 0) }

/-- The call that `clearStaleChunkDelayed` left in the queue. -/
def clearStaleDelayed : Db Unit := do
  if (← get).clearingStale then
    modify fun db => { db with clearingStale := false }
    clearStaleChunk env

def clearStaleNow (stale : List Key) : Db Unit := do
  match stale with
  | [] => return
  | front :: _ =>
    modify fun db => { db with stale := db.stale ++ [front] }
    stale.forM fun key => discard (remove env key)
    modify fun db => { db with stale := [] }

/-- The entries of the map in the order of its listing. -/
def mapEntries : Db (List (Key × Entry)) := do
  let db ← get
  ask fun n => env.order n db.map.toList

def clearByTag (tag : UInt8) : Db Error := do
  let hadStale := (← get).stale ≠ []
  let entries ← mapEntries env
  modify fun db => { db with
    stale := db.stale ++ (entries.filter fun p => p.2.tag = tag).map Prod.fst }
  if !hadStale then clearStaleChunk env
  return .noError

/-- `waitForCleaner`, which clears what is stale before it waits. -/
def clearAllStale : Nat → Db Unit
  | 0 => throw .running
  | fuel + 1 => do
    if (← get).stale = [] then return
    clearStaleChunk env
    clearAllStale fuel

def waitForCleaner : Db Unit := do clearAllStale env ((← get).stale.length + 1)

end

/-- The keys to remove with the sum of their sizes, and the index, whose minimal
time is found anew on the way. -/
structure TimeStale where
  index : Index
  stale : Std.ExtTreeSet Key := ∅
  staleTotalSize : Nat := 0

def TimeStale.visit (before : UInt64) (s : TimeStale) (p : Key × Entry) : TimeStale :=
  if p.2.useTime ≤ before then
    { s with stale := s.stale.insert p.1, staleTotalSize := s.staleTotalSize + p.2.size }
  else if s.index.minimalEntryTime = 0 ∨ p.2.useTime < s.index.minimalEntryTime then
    { s with index := { s.index with
      minimalEntryTime := p.2.useTime, entriesWithMinimalTimeCount := 1 } }
  else if s.index.minimalEntryTime = p.2.useTime then
    { s with index := { s.index with
      entriesWithMinimalTimeCount := s.index.entriesWithMinimalTimeCount + 1 } }
  else s

def collectTimeStale (settings : Settings) (before : UInt64) (idx : Index)
    (entries : List (Key × Entry)) : TimeStale :=
  if settings.totalTimeLimit = 0 ∨ idx.minimalEntryTime = 0 ∨ before < idx.minimalEntryTime then
    { index := idx }
  else
    entries.foldl (TimeStale.visit before)
      { index := { idx with minimalEntryTime := 0, entriesWithMinimalTimeCount := 0 } }

/-- `oldest`, a map that is ordered by the use time as a signed number, the
greatest first. -/
def insertOldest (oldest : List (Key × Entry)) (p : Key × Entry) : List (Key × Entry) :=
  oldest.orderedInsert (fun a b => b.2.useTime.toInt64 < a.2.useTime.toInt64) p

def dropOldest (removeSize : Int) (adding : Entry) :
    List (Key × Entry) → Int → List (Key × Entry) × Int
  | [], total => ([], total)
  | first :: oldest, total =>
    if adding.useTime ≤ first.2.useTime ∧ first.2.size ≤ total + adding.size - removeSize then
      dropOldest removeSize adding oldest (total - first.2.size)
    else (first :: oldest, total)

def visitOldest (removeSize : Int) (stale : Std.ExtTreeSet Key)
    (s : List (Key × Entry) × Int) (p : Key × Entry) : List (Key × Entry) × Int :=
  let adding : Bool := s.2 < removeSize ∨ ∃ first ∈ s.1.head?, p.2.useTime < first.2.useTime
  if stale.contains p.1 = true ∨ adding = false then s
  else
    let (oldest, total) := dropOldest removeSize p.2 s.1 s.2
    (insertOldest oldest p, total + p.2.size)

def collectSizeStale (settings : Settings) (totalSize : Nat) (s : TimeStale)
    (entries : List (Key × Entry)) : Std.ExtTreeSet Key :=
  let removeSize : Int := if 0 < settings.totalSizeLimit then
    totalSize - s.staleTotalSize - settings.totalSizeLimit else 0
  if removeSize ≤ 0 then s.stale
  else
    let (oldest, _) := entries.foldl (visitOldest removeSize s.stale) ([], 0)
    oldest.foldl (fun stale p => stale.insert p.1) s.stale

section

variable (env : Environment)

def prune : Db Unit := do
  if (← get).stale ≠ [] then return
  let before ← pruneBeforeTime env
  let entries ← mapEntries env
  let db ← get
  let timeStale := collectTimeStale env.settings before db.toIndex entries
  set { db with toIndex := timeStale.index }
  let entries ← mapEntries env
  let stale := (collectSizeStale env.settings db.totalSize timeStale entries).toList
  if stale.length ≤ env.settings.staleRemoveChunk then clearStaleNow env stale
  else
    modify fun db => { db with stale := stale }
    clearStaleChunk env

/-! ### Opening and closing -/

def clearState : Db Unit := modify fun db => { db with
  toIndex := {}, hasKey := false, removing := ∅, accessed := ∅, stale := [] }

def close : Db Unit := do
  if (← get).binlogOpen then
    writeBundles env
    closeBinlog
  clearState

def kTrackEstimatedTime : Nat := 1

def readHeader : Db Bool := do
  let db ← get
  if db.binlog.offset ≠ 0 then return false
  let (bytes, binlog) ← db.binlog.read sizeofBasicHeader
  set { db with binlog }
  if bytes.length ≠ sizeofBasicHeader ∨ field bytes 0 1 ≠ 0 ∨
      env.settings.trackEstimatedTime ≠ decide (field bytes 1 3 % 2 = kTrackEstimatedTime) then
    return false
  let system := UInt32.ofNat (field bytes 4 4)
  modify fun db => { db with time := { relative := system.toUInt64, system } }
  return true

def encodeHeader (tracked : Bool) (system : UInt32) : List UInt8 :=
  0 :: leBytes 3 (if tracked then kTrackEstimatedTime else 0) ++ leBytes 4 system.toNat ++
    leBytes 8 0

def writeHeader : Db Bool := do
  let system ← if env.settings.trackEstimatedTime then getUnixtime env else pure 0
  modify fun db => { db with time := { relative := system.toUInt64, system } }
  writeBinlog env (encodeHeader env.settings.trackEstimatedTime system)

def adjustRelativeTime : Db Unit := do
  if env.settings.trackEstimatedTime = false then return
  let now ← getUnixtime env
  if now < (← get).time.system then discard (writeMultiAccessBlock env)

def readBinlog : Db Unit := do
  if env.settings.readBlockSize < sizeofStore env.settings.trackEstimatedTime then throw .assertion
  let db ← get
  let F := binlogFraming env.settings.trackEstimatedTime env.settings.maxBundledRecords
  let (wrapper, idx) ← readBinlogHelper F env.settings.readBlockSize (handleRecord env.settings)
    (db.binlog.data.length + 2) (.create db.binlog 0) db.toIndex
  set { db with toIndex := idx, binlog := wrapper.binlog }
  adjustRelativeTime env

/-- `stored` is what lies under the path of the binlog. -/
def openBinlog (mode : Mode) (stored : List UInt8) : Db OpenResult := do
  closeBinlog
  match ← ask env.opened with
  | .success =>
    let data := if mode = .write then [] else stored
    modify fun db => { db with binlog := { data }, binlogOpen := true }
    let headerRequired := mode = .read ∨ mode = .readAppend ∧ 0 < (← get).binlog.size
    let headerResult ← if headerRequired then readHeader env else writeHeader env
    if !headerResult then return .failed
    modify fun db => { db with hasKey := true }
    readBinlog env
    return .success
  | result => return result

/-- A new version has a directory of its own, which is empty. -/
def openNewBinlog : Db Error := do
  if !(← ask env.versionWritten) then return .io .version
  modify fun db => { db with files := fun _ => none }
  return match ← openBinlog env .write [] with
    | .success => .noError
    | _ => .io .binlog

def openSomeBinlog (stored : List UInt8) : Db Error := do
  match ← openBinlog env .readAppend stored with
  | .success => return .noError
  | .failed => openNewBinlog env
  | .lockFailed => return .lockFailed .binlog
  | .wrongKey =>
    if env.settings.clearOnWrongKey then openNewBinlog env else return .wrongKey .binlog

/-- `files` are those of the version that is opened, besides its binlog. -/
def «open» (stored : List UInt8) (files : PlaceId → Option (List UInt8)) : Db Error := do
  close env
  modify fun db => { db with files := files }
  let error ← openSomeBinlog env stored
  if error ≠ .noError then close env
  return error

def clear : Db Error := do
  let hasKey := (← get).hasKey
  if hasKey then close env
  if !(← ask env.versionWritten) then return .io .version
  if !hasKey then return .noError
  «open» env [] fun _ => none

end

end TelegramClient.Cache
