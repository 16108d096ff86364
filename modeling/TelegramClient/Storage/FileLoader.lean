import Mathlib
import TelegramClient.Lib.Assembly

/-! Downloading a file in parts, from its datacenter or from a cdn whose parts are
checked against hashes. -/

namespace TelegramClient.Storage

abbrev Bytes := List UInt8

abbrev DcId := Nat

def kDownloadCdnPartSize : Nat := 128 * 1024

def kKeySize : Nat := 32

def kIvecSize : Nat := 16

structure RPCError where
  code : Int
  type : String
  deriving DecidableEq, Repr

namespace RPCError

def typeStartsWith (e : RPCError) (start : String) : Bool := start.toList.isPrefixOf e.type.toList

def isFloodError (e : RPCError) : Bool := e.typeStartsWith "FLOOD_WAIT_"

def isTemporaryError (e : RPCError) : Bool := decide (e.code < 0) || decide (500 ≤ e.code) || e.isFloodError

def isDefaultHandledError (e : RPCError) : Bool := e.isTemporaryError

def isFileReference (e : RPCError) : Bool := e.code == 400 && e.typeStartsWith "FILE_REFERENCE_"

def isTokenInvalid (e : RPCError) : Bool :=
  e.type == "FILE_TOKEN_INVALID" || e.type == "REQUEST_TOKEN_INVALID"

end RPCError

inductive LoadToCacheSetting where
  | loadToFileOnly
  | loadToCacheAsWell
  deriving DecidableEq, Repr

inductive Location where
  | storage
  | web
  deriving DecidableEq, Repr

/-- The handler that waits for the answer to a request; after a stale file reference
a request stays in the books while the reference is refreshed. -/
inductive RequestKind where
  | part
  | webPart
  | cdnPart
  | reupload
  | hashes
  | refreshing
  deriving DecidableEq, Repr

structure RequestData where
  dcId : DcId
  offset : Nat
  kind : RequestKind
  deriving DecidableEq, Repr

structure FileHash where
  offset : Nat
  limit : Nat
  hash : Bytes
  deriving DecidableEq, Repr

structure CdnFileHash where
  limit : Nat
  hash : Bytes
  deriving DecidableEq, Repr

/-- `dcId = 0` when there is no cdn. -/
structure CdnParams where
  dcId : DcId := 0
  token : Bytes := []
  encryptionKey : Bytes := []
  encryptionIV : Bytes := []
  deriving DecidableEq, Repr

/-- A call of `feedPart` and whether the loader was in the cdn mode. -/
structure FedPart where
  offset : Nat
  bytes : Bytes
  cdn : Bool
  deriving DecidableEq, Repr

/-- What a loader calls: `disk n` is the result of the file operation with number `n`. -/
structure World where
  disk : Nat → Bool
  sha256 : Bytes → Bytes
  aesCtrEncrypt : Bytes → Bytes → Bytes → Bytes

/-- The loader after `start`. The last three fields are the history of a run: the parts
that were fed and the hashes that came, with the datacenter each came from. -/
structure FileLoader where
  location : Location
  dcId : DcId
  size : Nat
  toCache : LoadToCacheSetting
  filename : String
  file : Bytes := []
  fileIsOpen : Bool
  data : Bytes := []
  skippedBytes : Int := 0
  nextRequestOffset : Nat := 0
  lastComplete : Bool := false
  finished : Bool := false
  cancelled : Bool := false
  sentRequests : Std.ExtTreeMap Nat RequestData := ∅
  cdn : CdnParams := {}
  cdnFileHashes : Std.ExtTreeMap Nat CdnFileHash := ∅
  cdnUncheckedParts : Std.ExtTreeMap Nat Bytes := ∅
  cdnHashesRequestId : Nat := 0
  lastRequestId : Nat := 0
  diskCalls : Nat := 0
  fed : List FedPart := []
  received : List (DcId × FileHash) := []

inductive CheckCdnHashResult where
  | noHash
  | invalid
  | good
  deriving DecidableEq, Repr

namespace FileLoader

/-- A file that is not kept in memory is opened before the first request. -/
def start (location : Location) (dcId : DcId) (size : Nat) (toCache : LoadToCacheSetting)
    (filename : String) : FileLoader :=
  { location, dcId, size, toCache, filename,
    fileIsOpen := filename != "" && toCache == .loadToFileOnly }

def currentOffset (l : FileLoader) (includeSkipped : Bool) : Int :=
  ((if l.fileIsOpen then l.file.length else l.data.length) : Int) -
    (if includeSkipped then 0 else l.skippedBytes)

/-! ### Requests -/

def placeSentRequest (l : FileLoader) (r : RequestData) : FileLoader :=
  { l with
    lastRequestId := l.lastRequestId + 1
    sentRequests := l.sentRequests.insert (l.lastRequestId + 1) r }

def prepareRequest (l : FileLoader) (offset : Nat) : RequestData :=
  if l.cdn.dcId ≠ 0 then { dcId := l.cdn.dcId, offset, kind := .cdnPart }
  else
    match l.location with
    | .web => { dcId := l.dcId, offset, kind := .webPart }
    | .storage => { dcId := l.dcId, offset, kind := .part }

def makeRequest (l : FileLoader) (offset : Nat) : FileLoader :=
  l.placeSentRequest (l.prepareRequest offset)

def loadPart (l : FileLoader) : FileLoader :=
  if l.finished ∨ l.lastComplete ∨ (¬l.sentRequests.isEmpty ∧ l.size = 0) then l
  else if l.size ≠ 0 ∧ l.size ≤ l.nextRequestOffset then l
  else
    { l.makeRequest l.nextRequestOffset with
      nextRequestOffset := l.nextRequestOffset + kDownloadCdnPartSize }

def requestMoreCdnFileHashes (l : FileLoader) : FileLoader :=
  if l.cdnHashesRequestId ≠ 0 then l
  else
    match l.cdnUncheckedParts.keys.head? with
    | none => l
    | some offset =>
      { l.placeSentRequest { dcId := l.dcId, offset, kind := .hashes } with
        cdnHashesRequestId := l.lastRequestId + 1 }

def finishSentRequest (l : FileLoader) (id : Nat) : FileLoader :=
  { l with sentRequests := l.sentRequests.erase id }

/-- `cancel` with `cancelRequests`; the hashes and the parts that wait for them stay. -/
def cancel (l : FileLoader) : FileLoader :=
  { l with
    sentRequests := ∅
    cancelled := true
    finished := true
    file := if l.fileIsOpen then [] else l.file
    fileIsOpen := false
    data := []
    filename := "" }

def setFileName (l : FileLoader) (filename : String) : FileLoader :=
  if l.toCache ≠ .loadToCacheAsWell ∨ l.filename ≠ "" then l else { l with filename }

/-! ### Feeding a part -/

variable (w : World)

/-- `seek` and `write`; `none` when the file does not take the bytes. -/
def writeToFile (l : FileLoader) (offset : Nat) (buffer : Bytes) : Option FileLoader :=
  let fsize := l.file.length
  let skippedBytes :=
    if offset < fsize then l.skippedBytes - buffer.length
    else if fsize < offset then l.skippedBytes + (offset - fsize : Nat)
    else l.skippedBytes
  if w.disk l.diskCalls then
    some { l with
      skippedBytes
      file := Assembly.place l.file offset buffer 0
      diskCalls := l.diskCalls + 1 }
  else none

/-- A gap in front of the part is filled up before the part is appended. -/
def writeToData (l : FileLoader) (offset : Nat) (buffer : Bytes) : FileLoader :=
  let skippedBytes :=
    if l.data.length < offset then l.skippedBytes + (offset - l.data.length : Nat)
    else l.skippedBytes
  let data := Assembly.grow l.data offset 0
  if offset = data.length then { l with skippedBytes, data := data ++ buffer }
  else
    let data := Assembly.grow data (offset + buffer.length) 0
    { l with
      skippedBytes := skippedBytes - buffer.length
      data := data.take offset ++ buffer ++ data.drop (offset + buffer.length) }

def writePart (l : FileLoader) (offset : Nat) (buffer : Bytes) : Option FileLoader :=
  if buffer = [] then some l
  else if l.fileIsOpen then l.writeToFile w offset buffer
  else some (l.writeToData offset buffer)

def openFile (l : FileLoader) : Option FileLoader :=
  if l.fileIsOpen then some l
  else if w.disk l.diskCalls then
    some { l with file := [], fileIsOpen := true, diskCalls := l.diskCalls + 1 }
  else none

/-- The data of a loader for the cache go to its file as well, when it has a name. -/
def saveData (l : FileLoader) : Option FileLoader :=
  if l.filename ≠ "" ∧ l.toCache = .loadToCacheAsWell then
    (l.openFile w).bind fun l =>
      if w.disk l.diskCalls then
        some { l with file := l.file ++ l.data, diskCalls := l.diskCalls + 1 }
      else none
  else some l

def finish (l : FileLoader) : Bool × FileLoader :=
  match l.saveData w with
  | none => (false, l.cancel)
  | some l => (true, { l with finished := true, fileIsOpen := false })

/-- A part that is empty or whose size is no multiple of 1024 is the last one. -/
def isLast (buffer : Bytes) : Bool := buffer == [] || buffer.length % 1024 != 0

def isComplete (l : FileLoader) : Bool :=
  l.sentRequests.isEmpty && l.cdnUncheckedParts.isEmpty &&
    (l.lastComplete || (l.size != 0 && decide (l.size ≤ l.nextRequestOffset)))

def fedPart (l : FileLoader) (offset : Nat) (buffer : Bytes) : FedPart :=
  { offset, bytes := buffer, cdn := l.cdn.dcId != 0 }

def addToHistory (l : FileLoader) (part : FedPart) : FileLoader :=
  { l with fed := l.fed ++ [part] }

/-- The rest of `feedPart`, once the bytes are written. -/
def partWritten (l : FileLoader) (buffer : Bytes) : Bool × FileLoader :=
  let l := { l with lastComplete := l.lastComplete || isLast buffer }
  if l.isComplete then l.finish w else (true, l)

/-- Says whether the part was taken; when not, the loader is cancelled. -/
def feedPart (l : FileLoader) (offset : Nat) (buffer : Bytes) : Bool × FileLoader :=
  let l := l.addToHistory (l.fedPart offset buffer)
  match l.writePart w offset buffer with
  | none => (false, l.cancel)
  | some l => l.partWritten w buffer

/-! ### Cdn parameters and hashes -/

/-- A hash that is known for an offset is not replaced. -/
def addCdnHashes (l : FileLoader) (dcId : DcId) (hashes : List FileHash) : FileLoader :=
  { l with
    cdnFileHashes := hashes.foldl
      (fun known h => known.insertIfNew h.offset { limit := h.limit, hash := h.hash })
      l.cdnFileHashes
    received := l.received ++ hashes.map (dcId, ·) }

/-- All requests are cancelled and their offsets requested anew, with the parameters
of now and as parts, whatever the requests were for. -/
def resendAllRequests (l : FileLoader) : FileLoader :=
  (l.sentRequests.toList.map (·.2.offset)).foldl makeRequest { l with sentRequests := ∅ }

def changeCDNParams (l : FileLoader) (offset : Nat) (dcId : DcId) (params : CdnParams)
    (hashes : List FileHash) : FileLoader :=
  if params.dcId ≠ 0 ∧
      (params.encryptionKey.length ≠ kKeySize ∨ params.encryptionIV.length ≠ kIvecSize) then
    l.cancel
  else
    let changed := { l with cdn := params }.addCdnHashes dcId hashes
    (if l.cdn ≠ params then changed.resendAllRequests else changed).makeRequest offset

/-- The counter of a part in the last four bytes of the initialization vector. -/
def cdnIvec (iv : Bytes) (offset : Nat) : Bytes :=
  let counterOffset := offset % 2 ^ 32 / 16
  iv.take 12 ++ [24, 16, 8, 0].map fun shift => UInt8.ofNat (counterOffset >>> shift)

def checkCdnFileHash (l : FileLoader) (offset : Nat) (buffer : Bytes) : CheckCdnHashResult :=
  match l.cdnFileHashes[offset]? with
  | none => .noHash
  | some h => if w.sha256 buffer = h.hash then .good else .invalid

/-! ### Answers -/

def partLoaded (l : FileLoader) (offset : Nat) (buffer : Bytes) : FileLoader :=
  (l.feedPart w offset buffer).2

def webPartLoaded (l : FileLoader) (offset size : Nat) (buffer : Bytes) : FileLoader :=
  if l.size = 0 then { l with size }.partLoaded w offset buffer
  else if size ≠ l.size then l.cancel
  else l.partLoaded w offset buffer

def decryptPart (l : FileLoader) (offset : Nat) (bytes : Bytes) : Bytes :=
  w.aesCtrEncrypt l.cdn.encryptionKey (cdnIvec l.cdn.encryptionIV offset) bytes

/-- A part that waits for its hash is not replaced. -/
def withUnchecked (l : FileLoader) (offset : Nat) (buffer : Bytes) : FileLoader :=
  { l with cdnUncheckedParts := l.cdnUncheckedParts.insertIfNew offset buffer }

def withoutUnchecked (l : FileLoader) (offset : Nat) : FileLoader :=
  { l with cdnUncheckedParts := l.cdnUncheckedParts.erase offset }

def cdnPartLoaded (l : FileLoader) (offset : Nat) (bytes : Bytes) : FileLoader :=
  let buffer := l.decryptPart w offset bytes
  match l.checkCdnFileHash w offset buffer with
  | .noHash => (l.withUnchecked offset buffer).requestMoreCdnFileHashes
  | .invalid => l.cancel
  | .good => l.partLoaded w offset buffer

/-- The loop over the parts that wait: `none` when the handler has returned, else
whether a part was checked. -/
def checkParts : List (Nat × Bytes) → FileLoader → Bool → FileLoader × Option Bool
  | [], l, someMoreChecked => (l, some someMoreChecked)
  | part :: parts, l, someMoreChecked =>
    match l.checkCdnFileHash w part.1 part.2 with
    | .noHash => checkParts parts l someMoreChecked
    | .invalid => (l.cancel, none)
    | .good =>
      let fed := (l.withoutUnchecked part.1).feedPart w part.1 part.2
      if !fed.1 || fed.2.finished then (fed.2, none) else checkParts parts fed.2 true

/-- What follows the loop: nothing when the handler has returned from inside it. -/
def partsChecked : FileLoader × Option Bool → FileLoader
  | (l, none) => l
  | (l, some true) => l.requestMoreCdnFileHashes
  | (l, some false) => l.cancel

def getCdnFileHashesDone (l : FileLoader) (dcId : DcId) (hashes : List FileHash) : FileLoader :=
  let l := { l with cdnHashesRequestId := 0 }.addCdnHashes dcId hashes
  partsChecked (checkParts w l.cdnUncheckedParts.toList l false)

def forgetHashesRequest (l : FileLoader) (id : Nat) : FileLoader :=
  if id = l.cdnHashesRequestId then { l with cdnHashesRequestId := 0 } else l

def awaitReference (l : FileLoader) (id : Nat) (r : RequestData) : FileLoader :=
  { l with sentRequests := l.sentRequests.insert id { r with kind := .refreshing } }

/-- `normalPartFailed`, `partFailed` and `cdnPartFailed`. -/
def partFailed (l : FileLoader) (id : Nat) (r : RequestData) (e : RPCError) : FileLoader :=
  if e.isDefaultHandledError then l
  else
    match r.kind with
    | .part =>
      if e.isFileReference then l.awaitReference id r else l.cancel
    | .webPart | .refreshing => l.cancel
    | .cdnPart | .reupload | .hashes =>
      let l := l.forgetHashesRequest id
      if e.isTokenInvalid then (l.finishSentRequest id).changeCDNParams r.offset r.dcId {} []
      else l.cancel

inductive Reply where
  | file (bytes : Bytes)
  | cdnRedirect (params : CdnParams) (hashes : List FileHash)
  | webFile (size : Nat) (bytes : Bytes)
  | cdnFile (bytes : Bytes)
  | reuploadNeeded
  | fileHashes (hashes : List FileHash)
  deriving DecidableEq, Repr

/-- The handler of a request that is no more in the books; `none` for an answer of
another type than the request has. -/
def done (l : FileLoader) (r : RequestData) : Reply → Option FileLoader
  | .file bytes => if r.kind = .part then some (l.partLoaded w r.offset bytes) else none
  | .cdnRedirect params hashes =>
    if r.kind = .part then some (l.changeCDNParams r.offset r.dcId params hashes) else none
  | .webFile size bytes =>
    if r.kind = .webPart then some (l.webPartLoaded w r.offset size bytes) else none
  | .cdnFile bytes => if r.kind = .cdnPart then some (l.cdnPartLoaded w r.offset bytes) else none
  | .reuploadNeeded =>
    if r.kind = .cdnPart then
      some (l.placeSentRequest { dcId := l.dcId, offset := r.offset, kind := .reupload })
    else none
  | .fileHashes hashes =>
    match r.kind with
    | .reupload => some ((l.addCdnHashes r.dcId hashes).makeRequest r.offset)
    | .hashes => some (l.getCdnFileHashesDone w r.dcId hashes)
    | _ => none

/-- `refreshFileReferenceFrom`: the reference is another one now, or not. -/
def refreshFileReferenceFrom (l : FileLoader) (id : Nat) (r : RequestData)
    (changed : Bool) : FileLoader :=
  if l.location = .storage ∧ changed then (l.finishSentRequest id).makeRequest r.offset
  else l.cancel

inductive Event where
  | loadPart
  | setFileName (filename : String)
  | cancel
  | done (id : Nat) (reply : Reply)
  | fail (id : Nat) (e : RPCError)
  | refreshed (id : Nat) (changed : Bool)
  deriving DecidableEq, Repr

/-- What an event makes of a loader; `none` when it cannot come: there is no such
request, or it waits for something else. -/
def handle (l : FileLoader) : Event → Option FileLoader
  | .loadPart => some l.loadPart
  | .setFileName filename => some (l.setFileName filename)
  | .cancel => some l.cancel
  | .done id reply => l.sentRequests[id]?.bind fun r => (l.finishSentRequest id).done w r reply
  | .fail id e =>
    l.sentRequests[id]?.bind fun r =>
      if r.kind = .refreshing then none else some (l.partFailed id r e)
  | .refreshed id changed =>
    l.sentRequests[id]?.bind fun r =>
      if r.kind = .refreshing then some (l.refreshFileReferenceFrom id r changed) else none

def Step (l l' : FileLoader) : Prop := ∃ e, l.handle w e = some l'

abbrev Reachable (l l' : FileLoader) : Prop := Relation.ReflTransGen (Step w) l l'

end FileLoader

end TelegramClient.Storage
