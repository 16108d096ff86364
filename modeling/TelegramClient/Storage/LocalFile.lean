import Mathlib
import TelegramClient.Storage.HashMd5

/-! One file of the local storage (`storage/localstorage.cpp`): what `FileWriteDescriptor`
writes, what `readFile` accepts, and the encrypted blocks inside. -/

namespace TelegramClient

/-- What the library's `QByteArray` and `QFile::read` bound: sizes are of type `int`. -/
structure Qt where
  maxSize : Nat
  maxSize_lt : maxSize < 2 ^ 31

/-- The sizes of the 64-bit builds. -/
def qt64 : Qt := ⟨2 ^ 31 - 26, by decide⟩

/-- A `QByteArray`: null, or its bytes. -/
abbrev QByteArray := Option (List UInt8)

/-- The primitives of the cryptographic library that the local files use. -/
structure LocalCrypto where
  sha1 : List UInt8 → List UInt8
  igeEncrypt : List UInt8 → List UInt8 → List UInt8 → List UInt8
  igeDecrypt : List UInt8 → List UInt8 → List UInt8 → List UInt8
  length_sha1 : ∀ data, (sha1 data).length = 20
  length_igeEncrypt : ∀ key iv data, data.length % 16 = 0 →
    (igeEncrypt key iv data).length = data.length
  decrypt_encrypt : ∀ key iv data, data.length % 16 = 0 →
    igeDecrypt key iv (igeEncrypt key iv data) = data

def bytesAt (bytes : List UInt8) (offset size : Nat) : List UInt8 := (bytes.drop offset).take size

/-- The key and the initial vector for AES, from the key of the storage and the key of
the block. -/
def prepareAES_oldmtp (ssl : LocalCrypto) (authKey msgKey : List UInt8) (send : Bool) :
    List UInt8 × List UInt8 :=
  let x := if send then 0 else 8
  let a := ssl.sha1 (msgKey ++ bytesAt authKey x 32)
  let b := ssl.sha1 (bytesAt authKey (32 + x) 16 ++ msgKey ++ bytesAt authKey (48 + x) 16)
  let c := ssl.sha1 (bytesAt authKey (64 + x) 32 ++ msgKey)
  let d := ssl.sha1 (msgKey ++ bytesAt authKey (96 + x) 32)
  (bytesAt a 0 8 ++ bytesAt b 8 12 ++ bytesAt c 4 12,
    bytesAt a 8 12 ++ bytesAt b 0 8 ++ bytesAt c 16 4 ++ bytesAt d 0 8)

def aesEncryptLocal (ssl : LocalCrypto) (authKey src key128 : List UInt8) : List UInt8 :=
  let aes := prepareAES_oldmtp ssl authKey key128 false
  ssl.igeEncrypt aes.1 aes.2 src

def aesDecryptLocal (ssl : LocalCrypto) (authKey src key128 : List UInt8) : List UInt8 :=
  let aes := prepareAES_oldmtp ssl authKey key128 false
  ssl.igeDecrypt aes.1 aes.2 src

/-! ### Encrypted blocks -/

/-- The data begins with room for its size. -/
structure EncryptedDescriptor where
  data : List UInt8
  four_le : 4 ≤ data.length

/-- `random` is the source of `memset_rand`. -/
def prepareEncrypted (ssl : LocalCrypto) (authKey : List UInt8) (random : Nat → UInt8)
    (toEncrypt : EncryptedDescriptor) : List UInt8 :=
  let size := toEncrypt.data.length
  let fullSize := if size % 16 = 0 then size else size + (16 - size % 16)
  let padded := toEncrypt.data ++ (List.range (fullSize - size)).map random
  let sized := leBytes 4 size ++ padded.drop 4
  let key128 := (ssl.sha1 sized).take 16
  key128 ++ aesEncryptLocal ssl authKey sized key128

/-- Returns the whole block with its size in front; the stream over it begins behind the
size. -/
def decryptLocal (ssl : LocalCrypto) (authKey encrypted : List UInt8) : Option (List UInt8) :=
  if encrypted.length ≤ 16 ∨ encrypted.length % 16 ≠ 0 then none
  else
    let fullLen := encrypted.length - 16
    let encryptedKey := encrypted.take 16
    let decrypted := aesDecryptLocal ssl authKey (encrypted.drop 16) encryptedKey
    if (ssl.sha1 decrypted).take 16 ≠ encryptedKey then none
    else
      let dataLen := leValue (decrypted.take 4)
      if decrypted.length < dataLen ∨ dataLen ≤ fullLen - 16 ∨ dataLen < 4 then none
      else some (decrypted.take dataLen)

/-! ### The stream of a file -/

def QByteArray.bytes (data : QByteArray) : List UInt8 := data.getD []

def QByteArray.lengthWord (data : QByteArray) : List UInt8 :=
  bigEndian (if data.isNone then 0xffffffff else data.bytes.length)

/-- `stream >> data`: `none` is the status `ReadPastEnd`. -/
def readArray (stream : List UInt8) : Option (QByteArray × List UInt8) :=
  if stream.length < 4 then none
  else
    let len := leValue (stream.take 4).reverse
    if len = 0xffffffff then some (none, stream.drop 4)
    else if (stream.drop 4).length < len then none
    else some (some ((stream.drop 4).take len), (stream.drop 4).drop len)

def readArrays : Nat → List UInt8 → Option (List QByteArray × List UInt8)
  | 0, stream => some ([], stream)
  | n + 1, stream =>
    match readArray stream with
    | none => none
    | some (data, stream) =>
      match readArrays n stream with
      | none => none
      | some (arrays, stream) => some (data :: arrays, stream)

/-! ### The writer -/

def tdfMagic : List UInt8 := [0x54, 0x44, 0x46, 0x24]

def AppVersion : Nat := 2004004

/-- The file that is written: whether it opens, and how many bytes it takes at most of
each call, `none` for all of them. -/
structure Device where
  opens : Bool := true
  takes : Nat → Option Nat := fun _ => none

def Device.accepted (device : Device) (call : Nat) (bytes : List UInt8) : List UInt8 :=
  match device.takes call with
  | none => bytes
  | some n => bytes.take n

structure FileWriteDescriptor where
  file : List UInt8 := []
  calls : Nat := 0
  streamOk : Bool := true
  /-- Some call took fewer bytes than it was given. -/
  failed : Bool := false
  md5 : HashMd5 := {}
  /-- The bits of the `int32`. -/
  dataSize : UInt32 := 0

namespace FileWriteDescriptor

def write (device : Device) (w : FileWriteDescriptor) (bytes : List UInt8) : FileWriteDescriptor :=
  { w with
    file := w.file ++ device.accepted w.calls bytes
    calls := w.calls + 1
    failed := w.failed || decide (device.accepted w.calls bytes ≠ bytes) }

/-- A write of the stream: none is made once one has failed. -/
def streamWrite (device : Device) (w : FileWriteDescriptor) (bytes : List UInt8) :
    FileWriteDescriptor :=
  if w.streamOk then
    { w.write device bytes with streamOk := decide (device.accepted w.calls bytes = bytes) }
  else w

def init (device : Device) : FileWriteDescriptor :=
  (write device {} tdfMagic).write device (leBytes 4 AppVersion)

def writeData (device : Device) (w : FileWriteDescriptor) (data : QByteArray) :
    FileWriteDescriptor :=
  let w := w.streamWrite device data.lengthWord
  let w := if data.bytes = [] then w else w.streamWrite device data.bytes
  { w with
    md5 := (w.md5.feed data.lengthWord).feed data.bytes
    dataSize := w.dataSize + .ofNat (4 + data.bytes.length) }

def finish (device : Device) (w : FileWriteDescriptor) : FileWriteDescriptor :=
  let md5 := ((w.md5.feed (leBytes 4 w.dataSize.toNat)).feed (leBytes 4 AppVersion)).feed tdfMagic
  { w with md5 := md5 }.write device md5.result

/-- The descriptor from its creation to `finish`. -/
def writeAll (device : Device) (arrays : List QByteArray) : FileWriteDescriptor :=
  (arrays.foldl (writeData device) (init device)).finish device

end FileWriteDescriptor

/-! ### The reader -/

def asInt32 (v : Nat) : Int := if v < 2 ^ 31 then v else (v : Int) - 2 ^ 32

/-- One turn of the loop of `readFile`: the version and the stream of a copy. -/
def readCopy (qt : Qt) (f : List UInt8) : Option (Int × List UInt8) :=
  let magic := f.take 4
  if magic ≠ tdfMagic then none
  else
    let version := (f.drop 4).take 4
    if version.length ≠ 4 then none
    else if (AppVersion : Int) < asInt32 (leValue version) then none
    else
      let bytes := (f.drop 8).take (min f.length qt.maxSize)
      if bytes.length < 16 then none
      else
        let dataSize := bytes.length - 16
        let md5 := ((((HashMd5.feed {} (bytes.take dataSize)).feed (leBytes 4 dataSize)).feed
          version).feed magic)
        if md5.result ≠ bytes.drop dataSize then none
        else some (asInt32 (leValue version), bytes.take dataSize)

end TelegramClient
