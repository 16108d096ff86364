import TelegramClient.Lib.Assembly

/-! Files that are exported (`loadFile`, `loadFilePart` and `filePartDone` of
`export/export_api_wrap.cpp`): parts are requested one after another and written in their order. -/

namespace TelegramClient.Export.Files

open Assembly

abbrev Bytes := List UInt8

def kFileChunkSize : Nat := 128 * 1024

def kFileRequestsCount : Nat := 2

def kFileMaxSize : Nat := 1500 * 1024 * 1024

structure Request where
  offset : Nat
  bytes : Bytes := []
  deriving DecidableEq

structure FileProcess where
  relativePath : String
  file : Bytes := []
  offset : Nat := 0
  size : Nat
  requests : List Request := []
  deriving DecidableEq

/-- The process of the exporter, the offsets of the requests that are in flight, and what has come
of the file: the path that `done` was called with and what was written there. -/
structure ApiWrap where
  fileProcess : Option FileProcess
  sent : List Nat := []
  done : List (String × Bytes) := []
  errors : List String := []
  /-- An `Expects` or an `Assert` has failed, or an offset is no `int`. -/
  failed : Bool := false
  deriving DecidableEq

inductive UploadFile where
  | fileCdnRedirect
  | file (bytes : Bytes)

variable (s : ApiWrap)

def ApiWrap.fail : ApiWrap := { s with failed := true }

def ApiWrap.error (type : String) : ApiWrap := { s with errors := s.errors ++ [type] }

def ApiWrap.loadFilePart : ApiWrap :=
  match s.fileProcess with
  | none => s
  | some process =>
    if process.requests.length ≥ kFileRequestsCount ∨
        process.size > 0 ∧ process.offset ≥ process.size then s
    else if process.offset + kFileChunkSize ≥ 2 ^ 31 then s.fail
    else
      { s with
        fileProcess := some { process with
          requests := process.requests ++ [{ offset := process.offset }]
          offset := process.offset + kFileChunkSize }
        sent := s.sent ++ [process.offset] }

/-- The file is new, and the export is not canceled by its progress. -/
def loadFile (relativePath : String) (size : Nat) : ApiWrap :=
  ({ fileProcess := some { relativePath := relativePath, size := size } } : ApiWrap).loadFilePart

/-- Puts the bytes into the request with this offset. -/
def setBytes (offset : Nat) (bytes : Bytes) : List Request → Option (List Request)
  | [] => none
  | request :: requests =>
    if request.offset = offset then some ({ request with bytes := bytes } :: requests)
    else (setBytes offset bytes requests).map (request :: ·)

/-- The loop that writes what has come of the first requests. -/
def writeBlocks : List Request → Bytes → List Request × Bytes
  | [], file => ([], file)
  | request :: requests, file =>
    if request.bytes = [] then (request :: requests, file)
    else writeBlocks requests (file ++ request.bytes)

def ApiWrap.finish (process : FileProcess) : ApiWrap :=
  { s with fileProcess := none, done := s.done ++ [(process.relativePath, process.file)] }

def ApiWrap.filePartDone (offset : Nat) (result : UploadFile) : ApiWrap :=
  match s.fileProcess with
  | none => s.fail
  | some process =>
    if process.requests = [] then s.fail
    else
      match result with
      | .fileCdnRedirect => s.error "Cdn redirect is not supported."
      | .file bytes =>
        if bytes = [] then
          if process.size > 0 then s.error "Empty bytes received in file part."
          else s.finish process
        else
          match setBytes offset bytes process.requests with
          | none => s.fail
          | some requests =>
            let (requests, file) := writeBlocks requests process.file
            let process := { process with requests := requests, file := file }
            if requests ≠ [] ∨ process.size = 0 ∨ process.size > process.offset then
              ({ s with fileProcess := some process } : ApiWrap).loadFilePart
            else s.finish process

/-! ### Runs with a truthful server -/

/-- The answer to the request for a part. -/
def part (content : Bytes) (offset : Nat) : Bytes := partAt kFileChunkSize content offset

inductive Event where
  | answered (offset : Nat)
  | loadFilePart
  deriving DecidableEq

/-- Each request is answered once. -/
def ApiWrap.step (content : Bytes) : Event → Option ApiWrap
  | .answered offset =>
    if offset ∈ s.sent then
      some (({ s with sent := s.sent.erase offset } : ApiWrap).filePartDone offset
        (.file (part content offset)))
    else none
  | .loadFilePart => some s.loadFilePart

/-- The states that loading a file gets to by events that are allowed. -/
inductive Reachable (relativePath : String) (size : Nat) (content : Bytes)
    (allowed : ApiWrap → Event → Prop) : ApiWrap → Prop
  | start : Reachable relativePath size content allowed (loadFile relativePath size)
  | step {s s' : ApiWrap} {e : Event} (h : Reachable relativePath size content allowed s)
      (he : allowed s e) (hstep : s.step content e = some s') :
      Reachable relativePath size content allowed s'

/-- A file is written in the order of its parts until all of it is written, and then `done` is
called once. -/
structure Assembles (relativePath : String) (size : Nat) (content : Bytes) (s : ApiWrap) : Prop where
  failed : s.failed = false
  errors : s.errors = []
  sent_le : s.sent.length ≤ kFileRequestsCount
  written : ∀ process, s.fileProcess = some process →
    process.file <+: content ∧ (size > 0 → process.file ≠ content)
  working : s.fileProcess.isSome → s.done = [] ∧ s.sent ≠ []
  finished : s.fileProcess = none → s.done = [(relativePath, content)] ∧ s.sent = []

/-- More parts are requested in between when the size is known. -/
def OnlyOfKnownSize (size : Nat) (_ : ApiWrap) (e : Event) : Prop := e = .loadFilePart → size > 0

end TelegramClient.Export.Files
