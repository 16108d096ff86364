import Mathlib
import TelegramClient.Storage.LocalFile

/-! The format of the local files: what the writer leaves is accepted by the reader, array
by array and block by block, and nothing else is. -/

namespace TelegramClient

/-! ### Encrypted blocks -/

theorem decryptLocal_encrypted {ssl : LocalCrypto} {authKey sized : List UInt8}
    (hpos : 0 < sized.length) (hmod : sized.length % 16 = 0) :
    decryptLocal ssl authKey ((ssl.sha1 sized).take 16 ++
        aesEncryptLocal ssl authKey sized ((ssl.sha1 sized).take 16)) =
      if sized.length < leValue (sized.take 4) ∨ leValue (sized.take 4) ≤ sized.length - 16 ∨
        leValue (sized.take 4) < 4 then none
      else some (sized.take (leValue (sized.take 4))) := by
  have hkey : ((ssl.sha1 sized).take 16).length = 16 := by
    rw [List.length_take, ssl.length_sha1]
    rfl
  have haes : (aesEncryptLocal ssl authKey sized ((ssl.sha1 sized).take 16)).length =
      sized.length := ssl.length_igeEncrypt _ _ _ hmod
  have htake : ((ssl.sha1 sized).take 16 ++
      aesEncryptLocal ssl authKey sized ((ssl.sha1 sized).take 16)).take 16 =
      (ssl.sha1 sized).take 16 := by
    rw [List.take_append_of_le_length (Nat.le_of_eq hkey.symm),
      List.take_of_length_le (Nat.le_of_eq hkey)]
  have hdrop : ((ssl.sha1 sized).take 16 ++
      aesEncryptLocal ssl authKey sized ((ssl.sha1 sized).take 16)).drop 16 =
      aesEncryptLocal ssl authKey sized ((ssl.sha1 sized).take 16) := by
    rw [List.drop_append_of_le_length (Nat.le_of_eq hkey.symm),
      List.drop_of_length_le (Nat.le_of_eq hkey), List.nil_append]
  have hdec : aesDecryptLocal ssl authKey (aesEncryptLocal ssl authKey sized
      ((ssl.sha1 sized).take 16)) ((ssl.sha1 sized).take 16) = sized :=
    ssl.decrypt_encrypt _ _ _ hmod
  rw [decryptLocal]
  dsimp only
  rw [htake, hdrop, hdec, List.length_append, hkey, haes, if_neg (by omega), if_neg (by simp),
    Nat.add_sub_cancel_left]

theorem decryptLocal_prepareEncrypted (ssl : LocalCrypto) (authKey : List UInt8)
    (random : Nat → UInt8) (d : EncryptedDescriptor) (hd : d.data.length < 2 ^ 32) :
    decryptLocal ssl authKey (prepareEncrypted ssl authKey random d) =
      some (leBytes 4 d.data.length ++ d.data.drop 4) := by
  have hfour := d.four_le
  rw [prepareEncrypted]
  generalize hfull : (if d.data.length % 16 = 0 then d.data.length
    else d.data.length + (16 - d.data.length % 16)) = fullSize
  have hbounds : fullSize % 16 = 0 ∧ d.data.length ≤ fullSize ∧ fullSize < d.data.length + 16 := by
    split at hfull <;> omega
  generalize hpad : (List.range (fullSize - d.data.length)).map random = pad
  have hlpad : pad.length = fullSize - d.data.length := by
    rw [← hpad, List.length_map, List.length_range]
  have hsized : leBytes 4 d.data.length ++ (d.data ++ pad).drop 4 =
      leBytes 4 d.data.length ++ d.data.drop 4 ++ pad := by
    rw [List.drop_append_of_le_length hfour, List.append_assoc]
  have hlsized : (leBytes 4 d.data.length ++ d.data.drop 4 ++ pad).length = fullSize := by
    rw [List.length_append, List.length_append, length_leBytes, List.length_drop, hlpad]
    omega
  have hsize : leValue ((leBytes 4 d.data.length ++ d.data.drop 4 ++ pad).take 4) =
      d.data.length := by
    rw [List.append_assoc, List.take_append_of_le_length (by simp),
      List.take_of_length_le (by simp), leValue_leBytes_of_lt hd]
  rw [hsized, decryptLocal_encrypted (by omega) (by omega), hsize, hlsized, if_neg (by omega),
    List.take_left' (by rw [List.length_append, length_leBytes, List.length_drop]; omega)]

/-! ### Arrays in a stream -/

def encodeArray (data : QByteArray) : List UInt8 := data.lengthWord ++ data.bytes

def streamOf (arrays : List QByteArray) : List UInt8 := arrays.flatMap encodeArray

theorem length_lengthWord (data : QByteArray) : data.lengthWord.length = 4 := length_bigEndian _

theorem readArray_encodeArray {data : QByteArray} (h : data.bytes.length < 2 ^ 31)
    (stream : List UInt8) : readArray (encodeArray data ++ stream) = some (data, stream) := by
  have hword : (encodeArray data ++ stream).take 4 = data.lengthWord := by
    rw [encodeArray, List.append_assoc, List.take_append_of_le_length
      (Nat.le_of_eq (length_lengthWord data).symm), List.take_of_length_le
      (Nat.le_of_eq (length_lengthWord data))]
  have hrest : (encodeArray data ++ stream).drop 4 = data.bytes ++ stream := by
    rw [encodeArray, List.append_assoc, ← length_lengthWord data, List.drop_left]
  have hlen : ¬(encodeArray data ++ stream).length < 4 := by
    rw [List.length_append, encodeArray, List.length_append, length_lengthWord]
    omega
  rw [readArray, if_neg hlen]
  dsimp only
  rw [hword, hrest, QByteArray.lengthWord, bigEndian, List.reverse_reverse]
  cases data with
  | none =>
    rw [if_pos (by decide)]
    rfl
  | some bytes =>
    have hb : bytes.length < 2 ^ 31 := h
    have hv : leValue (leBytes 4 (if (some bytes : QByteArray).isNone then 0xffffffff
        else bytes.length)) = bytes.length := by
      rw [if_neg (by simp)]
      exact leValue_leBytes_of_lt (lt_trans hb (by decide))
    have hbytes : QByteArray.bytes (some bytes) = bytes := rfl
    rw [hbytes, hv, if_neg (by omega), if_neg (by simp), List.take_left, List.drop_left]

theorem readArrays_streamOf {arrays : List QByteArray}
    (h : ∀ data ∈ arrays, data.bytes.length < 2 ^ 31) (stream : List UInt8) :
    readArrays arrays.length (streamOf arrays ++ stream) = some (arrays, stream) := by
  induction arrays with
  | nil => rfl
  | cons data arrays ih =>
    rw [List.forall_mem_cons] at h
    rw [List.length_cons, readArrays, streamOf, List.flatMap_cons, List.append_assoc,
      readArray_encodeArray h.1, ← streamOf]
    dsimp only
    rw [ih h.2]

theorem length_encodeArray (data : QByteArray) :
    (encodeArray data).length = 4 + data.bytes.length := by
  rw [encodeArray, List.length_append, length_lengthWord]

theorem length_le_streamOf {arrays : List QByteArray} {data : QByteArray} (h : data ∈ arrays) :
    data.bytes.length ≤ (streamOf arrays).length := by
  have hlen := length_encodeArray data
  have hmem := List.le_sum_of_mem
    (List.mem_map_of_mem (f := fun a => (encodeArray a).length) h)
  rw [streamOf, List.length_flatMap]
  omega

theorem arrays_lt_of_fits {qt : Qt} {arrays : List QByteArray}
    (h : (streamOf arrays).length + 16 ≤ qt.maxSize) :
    ∀ data ∈ arrays, data.bytes.length < 2 ^ 31 := by
  intro data hdata
  have hle := length_le_streamOf hdata
  have hmax := qt.maxSize_lt
  omega

/-! ### What the writer leaves -/

/-- The signature of a stream, over all the bytes it covers. -/
def signature (stream version : List UInt8) : List UInt8 :=
  HashMd5.md5 (stream ++ leBytes 4 stream.length ++ version ++ tdfMagic)

def fileBytes (arrays : List QByteArray) : List UInt8 :=
  tdfMagic ++ leBytes 4 AppVersion ++ streamOf arrays ++
    signature (streamOf arrays) (leBytes 4 AppVersion)

namespace FileWriteDescriptor

/-- The state of the writer once the stream `xs` was given to it: the hash and the size
follow the stream, the file does as long as no call has failed. -/
structure Wrote (w : FileWriteDescriptor) (xs : List UInt8) : Prop where
  md5 : HashMd5.Fed w.md5 xs
  dataSize : w.dataSize.toNat = xs.length % 2 ^ 32
  file : w.failed = false →
    w.file = tdfMagic ++ leBytes 4 AppVersion ++ xs ∧ w.streamOk = true

variable {device : Device} {w : FileWriteDescriptor} {bytes xs : List UInt8}

theorem write_file (h : (w.write device bytes).failed = false) :
    w.failed = false ∧ (w.write device bytes).file = w.file ++ bytes := by
  rw [write] at h ⊢
  simp only [Bool.or_eq_false_iff, decide_eq_false_iff_not, not_not] at h
  exact ⟨h.1, by simp only [h.2]⟩

/-- A stream that has failed is not written to, and the failure is not forgotten. -/
theorem streamWrite_file (hok : w.failed = false → w.streamOk = true)
    (h : (w.streamWrite device bytes).failed = false) :
    w.failed = false ∧ (w.streamWrite device bytes).file = w.file ++ bytes ∧
      (w.streamWrite device bytes).streamOk = true := by
  rw [streamWrite] at h ⊢
  by_cases hs : w.streamOk = true
  · rw [if_pos hs] at h ⊢
    have hw := write_file h
    refine ⟨hw.1, hw.2, ?_⟩
    simp only [write, Bool.or_eq_false_iff, decide_eq_false_iff_not, not_not] at h
    simp only [h.2, decide_true]
  · rw [if_neg hs] at h
    exact absurd (hok h) hs

theorem wrote_init (device : Device) : Wrote (init device) [] where
  md5 := HashMd5.fed_nil
  dataSize := rfl
  file := by
    intro h
    have hversion := write_file h
    have hmagic := write_file hversion.1
    rw [List.append_nil, init, hversion.2, hmagic.2]
    exact ⟨rfl, rfl⟩

/-- The two writes of an array, the second only for an array that is not empty. -/
theorem writeArray_file {data : QByteArray} (hok : w.failed = false → w.streamOk = true)
    (h : (writeData device w data).failed = false) :
    w.failed = false ∧ (writeData device w data).file = w.file ++ encodeArray data ∧
      (writeData device w data).streamOk = true := by
  rw [writeData] at h ⊢
  dsimp only at h ⊢
  by_cases hb : data.bytes = []
  · rw [if_pos hb] at h ⊢
    rw [encodeArray, hb, List.append_nil]
    exact streamWrite_file hok h
  · rw [if_neg hb] at h ⊢
    have hok1 : (w.streamWrite device data.lengthWord).failed = false →
        (w.streamWrite device data.lengthWord).streamOk = true := by
      intro h1
      exact (streamWrite_file hok h1).2.2
    have h2 := streamWrite_file hok1 h
    have h1 := streamWrite_file hok h2.1
    refine ⟨h1.1, ?_, h2.2.2⟩
    rw [h2.2.1, h1.2.1, encodeArray, List.append_assoc]

theorem streamWrite_dataSize : (w.streamWrite device bytes).dataSize = w.dataSize ∧
    (w.streamWrite device bytes).md5 = w.md5 := by
  rw [streamWrite]
  split <;> exact ⟨rfl, rfl⟩

variable (device) in
theorem Wrote.writeData {data : QByteArray} (hw : Wrote w xs) (hl : data.bytes.length < 2 ^ 31) :
    Wrote (w.writeData device data) (xs ++ encodeArray data) where
  md5 := by
    have hfed := (hw.md5.feed data.lengthWord
      (by rw [length_lengthWord]; decide)).feed data.bytes (lt_trans hl (by decide))
    rw [FileWriteDescriptor.writeData]
    dsimp only
    rw [encodeArray, ← List.append_assoc]
    split <;> simpa only [streamWrite_dataSize.2] using hfed
  dataSize := by
    have hsize : (UInt32.ofNat (4 + data.bytes.length)).toNat = 4 + data.bytes.length := by
      rw [UInt32.toNat_ofNat', Nat.mod_eq_of_lt (by omega)]
    have hold := hw.dataSize
    rw [FileWriteDescriptor.writeData]
    dsimp only
    rw [List.length_append, encodeArray, List.length_append, length_lengthWord]
    split <;> simp only [streamWrite_dataSize.1, UInt32.toNat_add, hsize] <;> omega
  file := by
    intro h
    have hf := writeArray_file (fun hw' => (hw.file hw').2) h
    rw [hf.2.1, (hw.file hf.1).1, List.append_assoc]
    exact ⟨rfl, hf.2.2⟩

variable (device) in
theorem Wrote.foldl {arrays : List QByteArray} (h : ∀ data ∈ arrays, data.bytes.length < 2 ^ 31)
    (hw : Wrote w xs) :
    Wrote (arrays.foldl (FileWriteDescriptor.writeData device) w) (xs ++ streamOf arrays) := by
  induction arrays generalizing w xs with
  | nil => simpa [streamOf] using hw
  | cons data arrays ih =>
    rw [List.forall_mem_cons] at h
    have hnext := ih h.2 (hw.writeData device h.1)
    rwa [List.append_assoc] at hnext

variable (device) in
/-- Whatever the calls took, the signature is that of the whole stream. -/
theorem Wrote.finish_eq (hw : Wrote w xs) : ∃ md5 : HashMd5,
    md5.result = signature xs (leBytes 4 AppVersion) ∧
      w.finish device =
        { w with md5 := md5 }.write device (signature xs (leBytes 4 AppVersion)) := by
  have hsize : leBytes 4 w.dataSize.toNat = leBytes 4 xs.length := by
    rw [hw.dataSize, ← leBytes_mod 4 xs.length, show 256 ^ 4 = 2 ^ 32 by decide]
  have hfed := ((hw.md5.feed (leBytes 4 xs.length) (by simp)).feed
    (leBytes 4 AppVersion) (by simp)).feed tdfMagic (by decide)
  have hresult := hfed.result
  rw [finish]
  rw [hsize, hresult]
  exact ⟨_, hresult, rfl⟩

theorem writeAll_md5 {arrays : List QByteArray} (h : ∀ data ∈ arrays, data.bytes.length < 2 ^ 31) :
    (writeAll device arrays).md5.result = signature (streamOf arrays) (leBytes 4 AppVersion) := by
  obtain ⟨md5, hresult, heq⟩ := ((wrote_init device).foldl device h).finish_eq device
  rw [writeAll, heq]
  exact hresult

theorem writeAll_file {arrays : List QByteArray} (h : ∀ data ∈ arrays, data.bytes.length < 2 ^ 31)
    (hok : (writeAll device arrays).failed = false) :
    (writeAll device arrays).file = fileBytes arrays := by
  have hw := (wrote_init device).foldl device h
  obtain ⟨md5, -, heq⟩ := hw.finish_eq device
  rw [writeAll, heq] at hok ⊢
  have hlast := write_file hok
  rw [hlast.2]
  change (arrays.foldl (writeData device) (init device)).file ++ _ = _
  rw [(hw.file hlast.1).1]
  rfl

theorem writeAll_failed (hd : ∀ call bytes, device.accepted call bytes = bytes)
    (arrays : List QByteArray) : (writeAll device arrays).failed = false := by
  have hwrite : ∀ (w : FileWriteDescriptor) (bytes : List UInt8),
      (w.write device bytes).failed = w.failed := by
    intro w bytes
    simp [write, hd]
  have hstream : ∀ (w : FileWriteDescriptor) (bytes : List UInt8),
      (w.streamWrite device bytes).failed = w.failed := by
    intro w bytes
    rw [streamWrite]
    split
    · exact hwrite w bytes
    · rfl
  have harray : ∀ (w : FileWriteDescriptor) (data : QByteArray),
      (w.writeData device data).failed = w.failed := by
    intro w data
    rw [FileWriteDescriptor.writeData]
    dsimp only
    split <;> simp only [hstream]
  have harrays : ∀ w : FileWriteDescriptor,
      (arrays.foldl (FileWriteDescriptor.writeData device) w).failed = w.failed := by
    induction arrays with
    | nil => exact fun w => rfl
    | cons data arrays ih => exact fun w => (ih _).trans (harray w data)
  rw [writeAll, finish]
  rw [hwrite, harrays, init, hwrite, hwrite]

end FileWriteDescriptor

/-! ### What the reader accepts -/

theorem length_encode (s : Md5State) : s.encode.length = 16 := by
  simp [Md5State.encode]

theorem length_signature (stream version : List UInt8) : (signature stream version).length = 16 :=
  length_encode _

/-- The reader's own hash of a stream: its pieces are those of the writer put together. -/
theorem reader_md5 {data version : List UInt8} (hd : data.length < 2 ^ 32)
    (hv : version.length = 4) :
    ((((HashMd5.feed {} data).feed (leBytes 4 data.length)).feed version).feed tdfMagic).result =
      signature data version :=
  ((((HashMd5.fed_nil.feed data hd).feed _ (by simp)).feed version (by rw [hv]; decide)).feed
    tdfMagic (by decide)).result

/-- A copy that is read ends, up to what one read returns, with the signature of its stream. -/
theorem readCopy_eq_some {qt : Qt} {f data : List UInt8} {v : Int}
    (h : readCopy qt f = some (v, data)) :
    f.take 4 = tdfMagic ∧ ((f.drop 4).take 4).length = 4 ∧
      asInt32 (leValue ((f.drop 4).take 4)) = v ∧ v ≤ AppVersion ∧
      (f.drop 8).take (min f.length qt.maxSize) = data ++ signature data ((f.drop 4).take 4) := by
  rw [readCopy] at h
  dsimp only at h
  by_cases hmagic : f.take 4 ≠ tdfMagic
  · rw [if_pos hmagic] at h
    cases h
  rw [if_neg hmagic] at h
  by_cases hlen : ((f.drop 4).take 4).length ≠ 4
  · rw [if_pos hlen] at h
    cases h
  rw [if_neg hlen] at h
  by_cases hversion : (AppVersion : Int) < asInt32 (leValue ((f.drop 4).take 4))
  · rw [if_pos hversion] at h
    cases h
  rw [if_neg hversion] at h
  rw [not_not] at hmagic hlen
  have hmax := qt.maxSize_lt
  have hbytes : ((f.drop 8).take (min f.length qt.maxSize)).length ≤ qt.maxSize := by
    rw [List.length_take]
    omega
  revert h hbytes
  generalize (f.drop 8).take (min f.length qt.maxSize) = bytes
  intro h hbytes
  by_cases hshort : bytes.length < 16
  · rw [if_pos hshort] at h
    cases h
  rw [if_neg hshort] at h
  have hdata : (bytes.take (bytes.length - 16)).length = bytes.length - 16 := by
    rw [List.length_take]
    omega
  have hsign := @reader_md5 (bytes.take (bytes.length - 16)) _ (by omega) hlen
  rw [hdata] at hsign
  rw [hmagic, hsign] at h
  by_cases heq : signature (bytes.take (bytes.length - 16)) ((f.drop 4).take 4) ≠
      bytes.drop (bytes.length - 16)
  · rw [if_pos heq] at h
    cases h
  rw [if_neg heq] at h
  rw [not_not] at heq
  cases h
  refine ⟨hmagic, hlen, rfl, by omega, ?_⟩
  rw [heq, List.take_append_drop]

theorem readCopy_of_signed {qt : Qt} {version data : List UInt8} (hlen : version.length = 4)
    (hversion : asInt32 (leValue version) ≤ AppVersion) (hfits : data.length + 16 ≤ qt.maxSize) :
    readCopy qt (tdfMagic ++ version ++ data ++ signature data version) =
      some (asInt32 (leValue version), data) := by
  have hmagic : tdfMagic.length = 4 := rfl
  have hsignlen := length_signature data version
  have hmax := qt.maxSize_lt
  have htake : (tdfMagic ++ version ++ data ++ signature data version).take 4 = tdfMagic := by
    rw [List.append_assoc, List.append_assoc]
    exact List.take_left' rfl
  have hdrop4 : (tdfMagic ++ version ++ data ++ signature data version).drop 4 =
      version ++ (data ++ signature data version) := by
    rw [List.append_assoc, List.append_assoc]
    exact List.drop_left' rfl
  have hdrop8 : (tdfMagic ++ version ++ data ++ signature data version).drop 8 =
      data ++ signature data version := by
    rw [show 8 = 4 + 4 from rfl, ← List.drop_drop, hdrop4]
    exact List.drop_left' hlen
  have hall : (data ++ signature data version).length ≤
      min (tdfMagic ++ version ++ data ++ signature data version).length qt.maxSize := by
    simp only [List.length_append, hsignlen, hmagic, hlen]
    omega
  have hsize : (data ++ signature data version).length - 16 = data.length := by
    rw [List.length_append, hsignlen]
    omega
  rw [readCopy]
  dsimp only
  rw [htake, hdrop4, hdrop8, List.take_left' hlen, List.take_of_length_le hall, hsize,
    List.take_left, List.drop_left, reader_md5 (by omega) hlen, if_neg (by simp),
    if_neg (by simp [hlen]), if_neg (by omega),
    if_neg (by rw [List.length_append, hsignlen]; omega), if_neg (by simp)]

theorem readCopy_fileBytes {qt : Qt} {arrays : List QByteArray}
    (hfits : (streamOf arrays).length + 16 ≤ qt.maxSize) :
    readCopy qt (fileBytes arrays) = some ((AppVersion : Int), streamOf arrays) :=
  @readCopy_of_signed _ (leBytes 4 AppVersion) _ rfl (by decide) hfits

end TelegramClient
