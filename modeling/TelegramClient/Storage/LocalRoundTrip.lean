import Mathlib
import TelegramClient.Storage.LocalCopies

/-! Writing a local file and reading it back: every payload returns, as long as the stream
is not larger than what one read of the file can return. -/

namespace TelegramClient

/-- What is given to `writeData` and `writeEncrypted`. -/
inductive LocalPayload where
  | data (array : QByteArray)
  | encrypted (authKey : List UInt8) (random : Nat → UInt8) (d : EncryptedDescriptor)

def LocalPayload.array (ssl : LocalCrypto) : LocalPayload → QByteArray
  | .data array => array
  | .encrypted authKey random d => some (prepareEncrypted ssl authKey random d)

def arraysOf (ssl : LocalCrypto) (payloads : List LocalPayload) : List QByteArray :=
  payloads.map (LocalPayload.array ssl)

/-- A file that ends with the signature of its stream, as the reader sees it. -/
def Signed (qt : Qt) (f : List UInt8) : Prop :=
  ∃ data, (f.drop 8).take (min f.length qt.maxSize) = data ++ signature data ((f.drop 4).take 4)

theorem localFile_restored (qt : Qt) (ssl : LocalCrypto) (safe : Bool) (device : Device)
    (now : Nat) (d : LocalCopies) (payloads : List LocalPayload) (hopens : device.opens = true)
    (hok : (FileWriteDescriptor.writeAll device (arraysOf ssl payloads)).failed = false)
    (hfits : (streamOf (arraysOf ssl payloads)).length + 16 ≤ qt.maxSize) :
    ((d.writeFile safe device now (arraysOf ssl payloads)).readFile qt safe).1 =
        some ((AppVersion : Int), streamOf (arraysOf ssl payloads)) ∧
      readArrays payloads.length (streamOf (arraysOf ssl payloads)) =
        some (arraysOf ssl payloads, []) ∧
      (∀ (authKey : List UInt8) (random : Nat → UInt8) (block : EncryptedDescriptor),
        block.data.length < 2 ^ 32 →
        decryptLocal ssl authKey (prepareEncrypted ssl authKey random block) =
          some (leBytes 4 block.data.length ++ block.data.drop 4)) ∧
      (FileWriteDescriptor.writeAll device (arraysOf ssl payloads)).md5.result =
        ((((HashMd5.feed {} (streamOf (arraysOf ssl payloads))).feed
          (leBytes 4 (streamOf (arraysOf ssl payloads)).length)).feed
          (leBytes 4 AppVersion)).feed tdfMagic).result ∧
      (∀ d : LocalCopies, (∀ name copy, d.get name = some copy → ¬Signed qt copy.bytes) →
        (d.readFile qt safe).1 = none) ∧
      ∀ authKey encrypted : List UInt8,
        (ssl.sha1 (aesDecryptLocal ssl authKey (encrypted.drop 16) (encrypted.take 16))).take 16 ≠
          encrypted.take 16 →
        decryptLocal ssl authKey encrypted = none := by
  have hmax := qt.maxSize_lt
  have harrays := arrays_lt_of_fits hfits
  refine ⟨?_, ?_, ?_, ?_, ?_, ?_⟩
  · rw [LocalCopies.readFile_writeFile hopens, FileWriteDescriptor.writeAll_file harrays hok]
    exact readCopy_fileBytes hfits
  · have hread := readArrays_streamOf harrays []
    rwa [List.append_nil, arraysOf, List.length_map] at hread
  · intro authKey random block hblock
    exact decryptLocal_prepareEncrypted ssl authKey random block hblock
  · rw [FileWriteDescriptor.writeAll_md5 harrays]
    exact (reader_md5 (by omega) rfl).symm
  · intro d hsigned
    by_contra hread
    obtain ⟨result, hresult⟩ := Option.ne_none_iff_exists'.mp hread
    obtain ⟨name, copy, hget, hcopy⟩ := LocalCopies.readFile_eq_some hresult
    obtain ⟨v, data⟩ := result
    exact hsigned name copy hget ⟨data, (readCopy_eq_some hcopy).2.2.2.2⟩
  · intro authKey encrypted hkey
    rw [decryptLocal]
    dsimp only
    rw [if_pos hkey]
    exact ite_self none

/-- SHA-1 and AES for one block: four bytes of data under a key of zeros, padded with zeros. -/
def zeroKeyCrypto : LocalCrypto where
  sha1 data :=
    if data = [4] ++ List.replicate 15 0 then [0x7d, 0x41, 0xf6, 0xb7, 0xb6, 0xa3, 0x63, 0x3c,
      0xee, 0xc9, 0x88, 0xf8, 0x6d, 0x8d, 0xc2, 0xdd, 0x65, 0xc6, 0x27, 0x91]
    else if data.drop 16 = List.replicate 32 0 then [0x51, 0x4c, 0x2d, 0x6d, 0x5d, 0x29, 0x67, 0x20,
      0xc4, 0x1e, 0x91, 0xe9, 0x0f, 0x54, 0x97, 0xba, 0x1b, 0x0f, 0xda, 0x60]
    else if data.drop 32 = List.replicate 16 0 then [0xf6, 0x91, 0xbd, 0xe6, 0x7d, 0x28, 0xfb, 0x6a,
      0xf3, 0xe0, 0xea, 0x50, 0x0a, 0xfe, 0xee, 0x29, 0xba, 0x1d, 0x28, 0xca]
    else [0x1e, 0xcd, 0x53, 0xd5, 0x36, 0x70, 0x74, 0x06, 0x6b, 0x09, 0x2e, 0xa7, 0x77, 0x77,
      0x4e, 0x8f, 0x00, 0x90, 0x82, 0x85]
  igeEncrypt _ _ data :=
    if data = [4] ++ List.replicate 15 0 then [0xfe, 0xc7, 0xb6, 0x97, 0xef, 0xba, 0xde, 0x1c,
      0xcc, 0x23, 0xb5, 0xdd, 0x83, 0xa1, 0xf4, 0xe8]
    else if data = [0xfe, 0xc7, 0xb6, 0x97, 0xef, 0xba, 0xde, 0x1c, 0xcc, 0x23, 0xb5, 0xdd, 0x83,
      0xa1, 0xf4, 0xe8] then [4] ++ List.replicate 15 0
    else data
  igeDecrypt _ _ data :=
    if data = [4] ++ List.replicate 15 0 then [0xfe, 0xc7, 0xb6, 0x97, 0xef, 0xba, 0xde, 0x1c,
      0xcc, 0x23, 0xb5, 0xdd, 0x83, 0xa1, 0xf4, 0xe8]
    else if data = [0xfe, 0xc7, 0xb6, 0x97, 0xef, 0xba, 0xde, 0x1c, 0xcc, 0x23, 0xb5, 0xdd, 0x83,
      0xa1, 0xf4, 0xe8] then [4] ++ List.replicate 15 0
    else data
  length_sha1 data := by
    split
    · rfl
    split
    · rfl
    split <;> rfl
  length_igeEncrypt key iv data h := by
    split
    · next hdata => rw [hdata]; rfl
    split
    · next hdata => rw [hdata]; rfl
    · rfl
  decrypt_encrypt key iv data h := by
    by_cases hplain : data = [4] ++ List.replicate 15 0
    · rw [if_pos hplain, hplain]
      decide
    rw [if_neg hplain]
    by_cases hcipher : data = [0xfe, 0xc7, 0xb6, 0x97, 0xef, 0xba, 0xde, 0x1c, 0xcc, 0x23, 0xb5,
        0xdd, 0x83, 0xa1, 0xf4, 0xe8]
    · rw [if_pos hcipher, hcipher]
      decide
    · rw [if_neg hcipher, if_neg hplain, if_neg hcipher]

def zeroLocalPayloads : List LocalPayload :=
  [.data none, .data (some []), .data (some [0x61, 0x62, 0x63]),
    .encrypted (.replicate 256 0) (fun _ => 0) ⟨.replicate 4 0, by decide⟩]

theorem localFile_restored_zero :
    ((({} : LocalCopies).writeFile true {} 0 (arraysOf zeroKeyCrypto zeroLocalPayloads)).readFile qt64
        true).1 = some ((AppVersion : Int), streamOf (arraysOf zeroKeyCrypto zeroLocalPayloads)) :=
  (localFile_restored qt64 zeroKeyCrypto true {} 0 {} zeroLocalPayloads rfl
    (FileWriteDescriptor.writeAll_failed (by intro call bytes; rfl) _) (by decide)).1

theorem length_streamOf_replicate (count size : Nat) :
    (streamOf (.replicate count (some (.replicate size 0)))).length = count * (4 + size) := by
  rw [streamOf, List.length_flatMap, List.map_replicate, List.sum_replicate, length_encodeArray,
    smul_eq_mul, QByteArray.bytes, Option.getD_some, List.length_replicate]

/-- A stream that is larger than a `QByteArray` is written and cannot be read. -/
theorem readFile_large : ¬∀ arrays : List QByteArray,
    (∀ data ∈ arrays, data.bytes.length ≤ qt64.maxSize) →
      ((({} : LocalCopies).writeFile true {} 0 arrays).readFile qt64 true).1 =
        some ((AppVersion : Int), streamOf arrays) := by
  intro h
  have hread := h (.replicate 3 (some (.replicate (2 ^ 30) 0))) (by
    intro data hdata
    rw [List.eq_of_mem_replicate hdata, QByteArray.bytes, Option.getD_some, List.length_replicate]
    decide)
  obtain ⟨name, copy, hget, hcopy⟩ := LocalCopies.readFile_eq_some hread
  have hbytes := congrArg List.length (readCopy_eq_some hcopy).2.2.2.2
  rw [List.length_take, List.length_append, length_streamOf_replicate] at hbytes
  have hmax : qt64.maxSize = 2 ^ 31 - 26 := rfl
  omega

end TelegramClient
