import Mathlib
import TelegramClient.Storage.Encryption

/-! `Storage::File`: a file behind a header and a cipher. The operating system's
file is the list of its bytes; locks are free and no disk fails, but a file does
not outgrow the offsets of 64 bits. -/

namespace TelegramClient

inductive Mode where
  | read
  | readAppend
  | write
  deriving DecidableEq, Repr

inductive OpenResult where
  | failed
  | lockFailed
  | wrongKey
  | success
  deriving DecidableEq, Repr

def kSkipBytes : Nat := 4
def sizeofFileHeader : Nat := 112
def maxFileSize : Nat := 2 ^ 63 - 1

def magic : List UInt8 := [0x54, 0x44, 0x45, 0x46]

/-- `disk` is what lies under the name of the file, `mode` how `_data` is open
and `pos` its place there. -/
structure File where
  disk : Option (List UInt8) := none
  mode : Option Mode := none
  pos : Nat := 0
  encryptionOffset : Nat := 0
  dataSize : Nat := 0
  state : Option CtrState := none

namespace File

def bytes (f : File) : List UInt8 := f.disk.getD []

def close (f : File) : File := { disk := f.disk }

def offset (f : File) : Nat :=
  let realOffset := kSaltSize + f.encryptionOffset
  if sizeofFileHeader ≤ realOffset then realOffset - sizeofFileHeader else 0

def readPlain (f : File) (n : Nat) : Run (List UInt8 × File) :=
  match f.mode with
  | some .read | some .readAppend =>
    let bytes := (f.bytes.drop f.pos).take n
    .ok (bytes, { f with pos := f.pos + bytes.length })
  | _ => .error .refused

def writePlain (f : File) (bytes : List UInt8) : Bool × File :=
  match f.mode with
  | some .readAppend | some .write =>
    if maxFileSize < f.pos + bytes.length then (false, f)
    else
      (true, { f with
        disk := some (f.bytes.take f.pos ++ bytes ++ f.bytes.drop (f.pos + bytes.length))
        pos := f.pos + bytes.length })
  | _ => (false, f)

def decrypt (ssl : OpenSsl) (f : File) (bytes : List UInt8) : Run (List UInt8 × File) :=
  match f.state with
  | none => .error .assertion
  | some state =>
    match state.decrypt ssl bytes f.encryptionOffset with
    | .error stop => .error stop
    | .ok plain => .ok (plain, { f with encryptionOffset := f.encryptionOffset + bytes.length })

def encrypt (ssl : OpenSsl) (f : File) (bytes : List UInt8) : Run (List UInt8 × File) :=
  match f.state with
  | none => .error .assertion
  | some state =>
    match state.encrypt ssl bytes f.encryptionOffset with
    | .error stop => .error stop
    | .ok cipher => .ok (cipher, { f with encryptionOffset := f.encryptionOffset + bytes.length })

def decryptBack (ssl : OpenSsl) (f : File) (bytes : List UInt8) : Run File :=
  if f.encryptionOffset < bytes.length then .error .assertion
  else
    match { f with encryptionOffset := f.encryptionOffset - bytes.length }.decrypt ssl bytes with
    | .error stop => .error stop
    | .ok (_, f) => .ok { f with encryptionOffset := f.encryptionOffset - bytes.length }

def read (ssl : OpenSsl) (f : File) (n : Nat) : Run (List UInt8 × File) :=
  if n % kBlockSize ≠ 0 then .error .assertion
  else
    match f.readPlain n with
    | .error stop => .error stop
    | .ok (bytes, f) =>
      let back := bytes.length % kBlockSize
      let count := bytes.length - back
      let f := { f with pos := f.pos - back }
      if count = 0 then .ok ([], f) else f.decrypt ssl (bytes.take count)

def write (ssl : OpenSsl) (f : File) (bytes : List UInt8) : Run (Bool × File) :=
  if bytes.length % kBlockSize ≠ 0 then .error .assertion
  else if f.mode = none then .ok (false, f)
  else
    match f.encrypt ssl bytes with
    | .error stop => .error stop
    | .ok (cipher, f) =>
      match f.writePlain cipher with
      | (true, f) => .ok (true, { f with dataSize := max f.dataSize f.offset })
      | (false, f) =>
        match f.decryptBack ssl cipher with
        | .error stop => .error stop
        | .ok f => .ok (false, f)

def readWithPadding (ssl : OpenSsl) (f : File) (size : Nat) : Run (List UInt8 × File) :=
  readPadded (read ssl) f size

def writeWithPadding (ssl : OpenSsl) (f : File) (bytes random : List UInt8) :
    Run (Bool × File) :=
  writePadded (write ssl)
    (fun f bytes =>
      match f.decryptBack ssl bytes with
      | .error stop => .error stop
      | .ok f => .ok { f with pos := f.pos - bytes.length })
    f bytes random

def seek (f : File) (offset : Int) : Bool × File :=
  if offset < 0 ∨ (f.dataSize : Int) < offset ∨ f.mode = none then (false, f)
  else
    (true, { f with
      pos := kSkipBytes + (sizeofFileHeader + offset.toNat)
      encryptionOffset := sizeofFileHeader + offset.toNat - kSaltSize })

/-- The header without its checksum: the salt, then the format, the reserved
fields and the version of the application, all zero. -/
def checkedHeader (salt : List UInt8) : List UInt8 := salt ++ leBytes 16 0

def checksum (ssl : OpenSsl) (key : EncryptionKey) (checked : List UInt8) : List UInt8 :=
  ssl.sha256 (key.data ++ checked)

def writeHeader (ssl : OpenSsl) (key : EncryptionKey) (salt : List UInt8) (f : File) :
    Run (Bool × File) :=
  if f.state.isSome ∨ f.pos ≠ 0 then .error .assertion
  else
    match f.writePlain magic with
    | (false, f) => .ok (false, f)
    | (true, f) =>
      let f := { f with state := some (key.prepareCtrState ssl salt) }
      match f.writePlain salt with
      | (false, f) => .ok (false, f)
      | (true, f) =>
        match f.write ssl (leBytes 16 0 ++ checksum ssl key (checkedHeader salt)) with
        | .error stop => .error stop
        | .ok (false, f) => .ok (false, f)
        | .ok (true, f) => .ok (true, { f with dataSize := 0 })

def readHeader (ssl : OpenSsl) (key : EncryptionKey) (f : File) : Run (OpenResult × File) :=
  if f.state.isSome ∨ f.pos ≠ 0 then .error .assertion
  else
    match { f with pos := kSkipBytes }.readPlain sizeofFileHeader with
    | .error stop => .error stop
    | .ok (header, f) =>
      if header.length ≠ sizeofFileHeader then .ok (.failed, f)
      else
        let salt := header.take kSaltSize
        let f := { f with state := some (key.prepareCtrState ssl salt) }
        match f.decrypt ssl (header.drop kSaltSize) with
        | .error stop => .error stop
        | .ok (plain, f) =>
          if plain.drop 16 ≠ checksum ssl key (salt ++ plain.take 16) then .ok (.wrongKey, f)
          else if plain.getD 0 0 ≠ 0 then .ok (.failed, f)
          else if f.bytes.length < sizeofFileHeader + kSkipBytes then .error .assertion
          else
            let dataSize := f.bytes.length - sizeofFileHeader - kSkipBytes
            .ok (.success, { f with dataSize := dataSize - dataSize % kBlockSize })

def created : Run (Bool × File) → Run (OpenResult × File)
  | .error stop => .error stop
  | .ok (true, f) => .ok (.success, f)
  | .ok (false, f) => .ok (.failed, f)

def attemptOpen (ssl : OpenSsl) (key : EncryptionKey) (salt : List UInt8) (mode : Mode)
    (f : File) : Run (OpenResult × File) :=
  match mode with
  | .read =>
    if f.disk = none then .ok (.failed, f) else { f with mode := some .read }.readHeader ssl key
  | .readAppend =>
    let f := { f with disk := some f.bytes, mode := some .readAppend }
    if f.bytes = [] then created (f.writeHeader ssl key salt) else f.readHeader ssl key
  | .write => created ({ f with disk := some [], mode := some .write }.writeHeader ssl key salt)

def «open» (ssl : OpenSsl) (key : EncryptionKey) (salt : List UInt8) (mode : Mode) (f : File) :
    Run (OpenResult × File) :=
  match f.close.attemptOpen ssl key salt mode with
  | .error stop => .error stop
  | .ok (.success, f) => .ok (.success, f)
  | .ok (result, f) => .ok (result, f.close)

end File

/-- The calls of a user of the file, with the random bytes each of them draws. -/
inductive Call where
  | «open» (mode : Mode) (salt : Vector UInt8 64)
  | close
  | read (n : Nat)
  | readWithPadding (n : Nat)
  | write (bytes : List UInt8)
  | writeWithPadding (bytes : List UInt8) (random : Vector UInt8 16)
  | seek (offset : Int)

inductive Answer where
  | opened (result : OpenResult)
  | closed
  | bytes (bytes : List UInt8)
  | done (good : Bool)
  deriving DecidableEq, Repr

def File.call (ssl : OpenSsl) (key : EncryptionKey) (f : File) : Call → Run (Answer × File)
  | .open mode salt => Except.map (Prod.map .opened id) (f.open ssl key salt.toList mode)
  | .close => .ok (.closed, f.close)
  | .read n => Except.map (Prod.map .bytes id) (f.read ssl n)
  | .readWithPadding n => Except.map (Prod.map .bytes id) (f.readWithPadding ssl n)
  | .write bytes => Except.map (Prod.map .done id) (f.write ssl bytes)
  | .writeWithPadding bytes random =>
    Except.map (Prod.map .done id) (f.writeWithPadding ssl bytes random.toList)
  | .seek offset => .ok (.done (f.seek offset).1, (f.seek offset).2)

end TelegramClient
