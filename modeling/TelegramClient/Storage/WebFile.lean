import TelegramClient.Storage.HashMd5
import TelegramClient.Lib.Assembly

/-! A file of the web uploader (`Uploader::webFile` of `storage/file_upload.cpp`) and what is posted
of it. -/

namespace TelegramClient.Storage

namespace WebUpload

abbrev Bytes := List UInt8

inductive SendMediaType where
  | photo
  | audio
  | file
  | wallPaper
  | secure
  deriving DecidableEq

def SendMediaType.isDocument (type : SendMediaType) : Bool :=
  type = .file || type = .wallPaper || type = .audio

structure SendMediaReady where
  type : SendMediaType
  file : String
  filename : String
  filesize : Nat
  data : Bytes
  jpegMd5 : Bytes := []
  parts : List (Nat × Bytes) := []

structure FileLoadResult where
  type : SendMediaType
  filepath : String
  filename : String
  thumbname : String := ""
  filesize : Nat
  content : Bytes
  filemd5 : Bytes := []
  fileparts : List (Nat × Bytes) := []
  thumbparts : List (Nat × Bytes) := []

/-- What a file is made of: both constructors. -/
inductive Source where
  | media (ready : SendMediaReady)
  | file (result : FileLoadResult)

def Source.type : Source → SendMediaType
  | .media ready => ready.type
  | .file result => result.type

def Source.filename : Source → String
  | .media ready => ready.filename
  | .file result => result.filename

def Source.content : Source → Bytes
  | .media ready => ready.data
  | .file result => result.content

def Source.filepath : Source → String
  | .media ready => ready.file
  | .file result => result.filepath

/-- Photos and files for passports are sent in parts of their own, and thumbnails of documents. -/
def Source.parts : Source → List (Nat × Bytes)
  | .media ready => ready.parts
  | .file result =>
    if result.type = .photo ∨ result.type = .secure then result.fileparts else result.thumbparts

def Source.partsMd5 : Source → Bytes
  | .media ready => ready.jpegMd5
  | .file result => result.filemd5

def Source.partsName : Source → String
  | .media ready => ready.filename
  | .file result =>
    if result.type = .photo ∨ result.type = .secure then result.filename else result.thumbname

def kDocumentMaxPartsCount : Nat := 16

def kDocumentUploadPartSize0 : Nat := 1 * 1024 * 1024
def kDocumentUploadPartSize1 : Nat := 2 * 1024 * 1024
def kDocumentUploadPartSize2 : Nat := 4 * 1024 * 1024
def kDocumentUploadPartSize3 : Nat := 8 * 1024 * 1024

structure PartPost where
  fileUuid : Bytes
  fileType : String
  fileCount : Nat
  fileCountId : Nat
  fileForm : Bytes
  fileName : String
  fileHash : Bytes
  deriving DecidableEq

structure VerifyPost where
  fileUuid : Bytes
  fileType : String
  fileCount : Nat
  deriving DecidableEq

/-- The requests that were sent for the file are remembered. -/
structure WebFile where
  source : Source
  parts : List (Nat × Bytes)
  partsCount : Nat
  md5Hash : HashMd5 := {}
  docFile : Option Bytes := none
  docSentParts : Nat := 0
  docSize : Nat := 0
  docPartSize : Nat := 0
  docPartsCount : Nat := 0
  otherPosts : List PartPost := []
  docPosts : List PartPost := []
  verifyPosts : List VerifyPost := []

def partsCountOf (docSize partSize : Nat) : Nat :=
  docSize / partSize + if docSize % partSize = 0 then 0 else 1

/-- `setPartSize`, which says whether there are not too many parts. -/
def WebFile.setPartSize (f : WebFile) (partSize : Nat) : WebFile × Bool :=
  let docPartsCount := partsCountOf f.docSize partSize
  ({ f with docPartSize := partSize, docPartsCount := docPartsCount },
    docPartsCount ≤ kDocumentMaxPartsCount)

/-- The first size with which there are not too many parts. -/
def WebFile.setDocSize (f : WebFile) (size : Nat) : WebFile :=
  let f := { f with docSize := size }
  let limit0 := 2 * 1024 * 1024
  if size < limit0 ∧ (f.setPartSize kDocumentUploadPartSize0).2 then
    (f.setPartSize kDocumentUploadPartSize0).1
  else if (f.setPartSize kDocumentUploadPartSize1).2 then
    (f.setPartSize kDocumentUploadPartSize1).1
  else if (f.setPartSize kDocumentUploadPartSize2).2 then
    (f.setPartSize kDocumentUploadPartSize2).1
  else (f.setPartSize kDocumentUploadPartSize3).1

def webFile (source : Source) : WebFile :=
  let f : WebFile := { source := source, parts := source.parts, partsCount := source.parts.length }
  if source.type.isDocument then
    match source with
    | .media ready => f.setDocSize (if ready.file = "" then ready.data.length else ready.filesize)
    | .file result =>
      let f := f.setDocSize result.filesize
      if result.type = .audio then { f with md5Hash := f.md5Hash.feed result.content } else f
  else f

/-! ### Sending -/

/-- The disk, and the suffix of a file name. -/
structure System where
  readFile : String → Option Bytes
  suffix : String → String

def hexDigit (n : UInt8) : UInt8 := n + if n > 9 then 0x61 - 0x0A else 0x30

def hex (digest : Bytes) : Bytes :=
  digest.flatMap fun ch : UInt8 => [hexDigit ((ch >>> 4) &&& 0x0F), hexDigit (ch &&& 0x0F)]

/-- The hash of all documents is taken from `md5Hash`. -/
def WebFile.fileUuid (f : WebFile) : Bytes :=
  if f.source.type.isDocument then hex f.md5Hash.result else f.source.partsMd5

variable (system : System)

def WebFile.sendPart (f : WebFile) (key : Nat) (part : Bytes) (rest : List (Nat × Bytes)) : WebFile :=
  { f with
    parts := rest
    otherPosts := f.otherPosts ++ [{
      fileUuid := f.source.partsMd5
      fileType := system.suffix f.source.filename
      fileCount := f.partsCount
      fileCountId := key + 1
      fileForm := part
      fileName := f.source.partsName
      fileHash := hex (HashMd5.feed {} part).result }] }

/-- Opens the file of a document that is not in memory, once. -/
def WebFile.openFile (f : WebFile) : Option WebFile :=
  if f.source.content ≠ [] then some f
  else
    match f.docFile with
    | some _ => some f
    | none => (system.readFile f.source.filepath).map fun bytes =>
        { f with md5Hash := f.md5Hash.feed bytes, docFile := some bytes }

/-- The next part of a document, and the file behind it. -/
def WebFile.readPart (f : WebFile) : Bytes × WebFile :=
  if f.source.content ≠ [] then
    ((f.source.content.drop (f.docSentParts * f.docPartSize)).take f.docPartSize, f)
  else
    ((f.docFile.getD []).take f.docPartSize,
      { f with docFile := f.docFile.map (List.drop f.docPartSize) })

def WebFile.sendDocPart (f : WebFile) (toSend : Bytes) : WebFile :=
  { f with
    docSentParts := f.docSentParts + 1
    docPosts := f.docPosts ++ [{
      fileUuid := f.fileUuid
      fileType := system.suffix f.source.filename
      fileCount := f.docPartsCount
      fileCountId := f.docSentParts + 1
      fileForm := toSend
      fileName := f.source.filename
      fileHash := hex (HashMd5.feed {} toSend).result }] }

def WebFile.verify (f : WebFile) : WebFile :=
  { f with
    verifyPosts := f.verifyPosts ++ [{
      fileUuid := f.fileUuid
      fileType := system.suffix f.source.filename
      fileCount := if f.source.type.isDocument then f.docPartsCount else f.partsCount }] }

/-- What `sendNext` does with the file that is uploaded now: nothing if it has failed. -/
def WebFile.sendNext (f : WebFile) (nothingSent : Bool) : Option WebFile :=
  match f.parts with
  | (key, part) :: rest => some (f.sendPart system key part rest)
  | [] =>
    if f.docSentParts ≥ f.docPartsCount then
      if nothingSent then some (f.verify system) else some f
    else do
      let f ← f.openFile system
      let (toSend, f) := f.readPart
      if toSend.length < f.docPartSize ∧ f.docSentParts + 1 ≠ f.docPartsCount then none
      else some (f.sendDocPart system toSend)

end WebUpload

end TelegramClient.Storage
