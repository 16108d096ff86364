import Mathlib

/-! Secrets and data of Telegram Passport (`passport/passport_encryption.cpp`). -/

namespace TelegramClient.Passport

abbrev Bytes := List UInt8

/-- Why a call does not return. -/
inductive Fault where
  | expects
  | assert
  | outside
  deriving DecidableEq, Repr

abbrev Checked := Except Fault

/-- What is used of OpenSSL. -/
structure Crypto where
  sha256 : Bytes → Bytes
  sha512 : Bytes → Bytes
  aesCbcEncrypt : Bytes → Bytes → Bytes → Bytes
  aesCbcDecrypt : Bytes → Bytes → Bytes → Bytes
  length_sha256 : ∀ data, (sha256 data).length = 32
  length_sha512 : ∀ data, (sha512 data).length = 64
  length_encrypt : ∀ key iv data, (aesCbcEncrypt key iv data).length = data.length
  length_decrypt : ∀ key iv data, (aesCbcDecrypt key iv data).length = data.length
  decrypt_encrypt : ∀ key iv data, data.length % 16 = 0 →
    aesCbcDecrypt key iv (aesCbcEncrypt key iv data) = data

def kAesKeyLength : Nat := 32
def kAesIvLength : Nat := 16
def kSecretSize : Nat := 32
def kAesParamsHashSize : Nat := 64
def kMinPadding : Nat := 32
def kMaxPadding : Nat := 255
def kAlignTo : Nat := 16
def kDataHashSize : Nat := 32

structure AesParams where
  key : Bytes
  iv : Bytes

def prepareAesParamsWithHash (hashForEncryptionKey : Bytes) : Checked AesParams :=
  if hashForEncryptionKey.length ≠ kAesParamsHashSize then .error .expects
  else
    .ok ⟨hashForEncryptionKey.take kAesKeyLength,
      (hashForEncryptionKey.drop kAesKeyLength).take kAesIvLength⟩

def prepareAesParams (c : Crypto) (bytesForEncryptionKey : Bytes) : Checked AesParams :=
  prepareAesParamsWithHash (c.sha512 bytesForEncryptionKey)

/-- `AES_set_encrypt_key` and `AES_set_decrypt_key` accept keys of three sizes. -/
def aesSetKeyFails (bits : Nat) : Bool := bits ≠ 128 && bits ≠ 192 && bits ≠ 256

def encryptOrDecrypt (cbc : Bytes → Bytes → Bytes → Bytes) (initial : Bytes) (params : AesParams) :
    Checked Bytes :=
  if initial.length &&& 0x0F ≠ 0 || params.key.length ≠ kAesKeyLength ||
      params.iv.length ≠ kAesIvLength then .error .expects
  else if aesSetKeyFails (params.key.length * 8) then .ok []
  else .ok (cbc params.key params.iv initial)

def encrypt (c : Crypto) (decrypted : Bytes) (params : AesParams) : Checked Bytes :=
  encryptOrDecrypt c.aesCbcEncrypt decrypted params

def decrypt (c : Crypto) (encrypted : Bytes) (params : AesParams) : Checked Bytes :=
  encryptOrDecrypt c.aesCbcDecrypt encrypted params

def accumulate (bytes : Bytes) : Nat := (bytes.map UInt8.toNat).sum

def checkBytesMod255 (bytes : Bytes) : Bool := accumulate bytes % 255 = 239

def checkSecretBytes (secret : Bytes) : Bool := checkBytesMod255 secret

def generateSecretBytes (random : Nat → UInt8) : Bytes :=
  let result := (List.range kSecretSize).map random
  let mod := accumulate result % 255
  let add := 255 + 239 - mod
  let first := ((random 0).toNat + add) % 255
  result.set 0 (.ofNat first)

def decryptSecretBytesWithHash (c : Crypto) (encryptedSecret hashForEncryptionKey : Bytes) :
    Checked Bytes :=
  if encryptedSecret = [] then .ok []
  else if encryptedSecret.length ≠ kSecretSize then .ok []
  else do
    let params ← prepareAesParamsWithHash hashForEncryptionKey
    let result ← decrypt c encryptedSecret params
    if !checkSecretBytes result then .ok [] else .ok result

def decryptSecretBytes (c : Crypto) (encryptedSecret bytesForEncryptionKey : Bytes) :
    Checked Bytes :=
  decryptSecretBytesWithHash c encryptedSecret (c.sha512 bytesForEncryptionKey)

def encryptSecretBytes (c : Crypto) (secret bytesForEncryptionKey : Bytes) : Checked Bytes :=
  if secret.length ≠ kSecretSize || !checkSecretBytes secret then .error .expects
  else do
    let params ← prepareAesParams c bytesForEncryptionKey
    encrypt c secret params

structure EncryptedData where
  secret : Bytes
  hash : Bytes
  bytes : Bytes

/-- The size of the padding for a draw of `rand_value<uint32>()`. -/
def paddingSize (draw : UInt32) (size : Nat) : Nat :=
  let kFromPadding := kMinPadding + kAlignTo - 1
  let kPaddingDelta := kMaxPadding - kFromPadding
  let randomPadding := kFromPadding + draw.toNat % kPaddingDelta
  randomPadding - (size + randomPadding) % kAlignTo

/-- `random` are the bytes of the padding behind its first one. -/
def encryptData (c : Crypto) (bytes dataSecret : Bytes) (draw : UInt32) (random : Nat → UInt8) :
    Checked EncryptedData :=
  let padding := paddingSize draw bytes.length
  if padding < kMinPadding || kMaxPadding < padding then .error .assert
  else if (padding + bytes.length) % kAlignTo ≠ 0 then .error .assert
  else do
    let unencrypted := .ofNat padding :: (List.range (padding - 1)).map random ++ bytes
    let dataHash := c.sha256 unencrypted
    let params ← prepareAesParams c (dataSecret ++ dataHash)
    let encrypted ← encrypt c unencrypted params
    .ok ⟨dataSecret, dataHash, encrypted⟩

def decryptData (c : Crypto) (encrypted dataHash dataSecret : Bytes) : Checked Bytes :=
  if encrypted = [] then .ok []
  else if dataHash.length ≠ kDataHashSize then .ok []
  else if dataSecret.length ≠ kSecretSize then .ok []
  else do
    let params ← prepareAesParams c (dataSecret ++ dataHash)
    let decrypted ← decrypt c encrypted params
    if c.sha256 decrypted ≠ dataHash then .ok []
    else
      match decrypted.head? with
      | none => .error .outside
      | some first =>
        let padding := first.toNat
        if padding < kMinPadding || kMaxPadding < padding || decrypted.length < padding then .ok []
        else .ok (decrypted.drop padding)

variable {c : Crypto} {key secret bytes data : Bytes}

/-! ## Ciphers -/

def Crypto.params (c : Crypto) (bytesForEncryptionKey : Bytes) : AesParams :=
  ⟨(c.sha512 bytesForEncryptionKey).take kAesKeyLength,
    ((c.sha512 bytesForEncryptionKey).drop kAesKeyLength).take kAesIvLength⟩

theorem prepareAesParams_eq : prepareAesParams c key = .ok (c.params key) := by
  rw [prepareAesParams, prepareAesParamsWithHash]
  exact if_neg (not_not_intro (c.length_sha512 key))

theorem prepareAesParamsWithHash_eq :
    prepareAesParamsWithHash (c.sha512 key) = .ok (c.params key) := prepareAesParams_eq

theorem length_params :
    (c.params key).key.length = kAesKeyLength ∧ (c.params key).iv.length = kAesIvLength := by
  have hlength := c.length_sha512 key
  constructor
  · rw [Crypto.params, List.length_take, hlength]
    rfl
  · rw [Crypto.params, List.length_take, List.length_drop, hlength]
    rfl

theorem and_fifteen (n : Nat) : n &&& 0x0F = n % 16 := Nat.and_two_pow_sub_one_eq_mod n 4

theorem encryptOrDecrypt_eq (cbc : Bytes → Bytes → Bytes → Bytes) :
    encryptOrDecrypt cbc data (c.params key) =
      if data.length % 16 = 0 then .ok (cbc (c.params key).key (c.params key).iv data)
      else .error .expects := by
  obtain ⟨hkey, hiv⟩ := @length_params c key
  rw [encryptOrDecrypt, hkey, hiv, and_fifteen]
  by_cases hblocks : data.length % 16 = 0
  · simp [hblocks, aesSetKeyFails, kAesKeyLength]
  · simp [hblocks]

/-! ## Secrets -/

theorem accumulate_cons (b : UInt8) (bytes : Bytes) :
    accumulate (b :: bytes) = b.toNat + accumulate bytes := by
  rw [accumulate, List.map_cons, List.sum_cons]
  rfl

theorem repaired_mod (first rest : Nat) :
    ((first + (255 + 239 - (first + rest) % 255)) % 255 + rest) % 255 = 239 := by
  have hmod := Nat.mod_add_div (first + rest) 255
  have hlt := Nat.mod_lt (first + rest) (show 0 < 255 by decide)
  rw [Nat.mod_add_mod]
  have hsum : first + (255 + 239 - (first + rest) % 255) + rest =
      239 + 255 * ((first + rest) / 255 + 1) := by omega
  rw [hsum, Nat.add_mul_mod_self_left]

theorem checkSecretBytes_generateSecretBytes (random : Nat → UInt8) :
    checkSecretBytes (generateSecretBytes random) = true := by
  have hdraw : (List.range kSecretSize).map random =
      random 0 :: (List.range 31).map fun i => random (i + 1) := rfl
  rw [checkSecretBytes, checkBytesMod255, generateSecretBytes, hdraw, List.set_cons_zero,
    accumulate_cons, accumulate_cons, decide_eq_true_iff]
  generalize accumulate ((List.range 31).map fun i => random (i + 1)) = rest
  generalize (random 0).toNat = first
  have hlt : (first + (255 + 239 - (first + rest) % 255)) % 255 < 2 ^ 8 :=
    (Nat.mod_lt _ (show 0 < 255 by decide)).trans (by decide)
  rw [UInt8.toNat_ofNat', Nat.mod_eq_of_lt hlt, repaired_mod]

theorem length_generateSecretBytes (random : Nat → UInt8) :
    (generateSecretBytes random).length = kSecretSize := by
  rw [generateSecretBytes, List.length_set, List.length_map, List.length_range]

structure SecretBytes where
  bytes : Bytes
  size : bytes.length = kSecretSize
  checked : checkSecretBytes bytes = true

def SecretBytes.generate (random : Nat → UInt8) : SecretBytes where
  bytes := generateSecretBytes random
  size := length_generateSecretBytes random
  checked := checkSecretBytes_generateSecretBytes random

theorem decryptSecretBytes_encryptSecretBytes (s : SecretBytes) :
    (encryptSecretBytes c s.bytes key >>= fun encrypted => decryptSecretBytes c encrypted key) =
      .ok s.bytes := by
  have hblocks : s.bytes.length % 16 = 0 := by
    rw [s.size]
    rfl
  have hencrypt : encryptSecretBytes c s.bytes key =
      .ok (c.aesCbcEncrypt (c.params key).key (c.params key).iv s.bytes) := by
    rw [encryptSecretBytes, if_neg (by simp [s.size, s.checked]), prepareAesParams_eq]
    exact (encryptOrDecrypt_eq c.aesCbcEncrypt).trans (if_pos hblocks)
  have hlength := c.length_encrypt (c.params key).key (c.params key).iv s.bytes
  rw [hencrypt]
  show decryptSecretBytes c _ key = _
  have hnil : c.aesCbcEncrypt (c.params key).key (c.params key).iv s.bytes ≠ [] := by
    intro hnil
    rw [hnil, s.size] at hlength
    cases hlength
  rw [decryptSecretBytes, decryptSecretBytesWithHash, if_neg hnil,
    if_neg (by rw [hlength, s.size]; simp), prepareAesParamsWithHash_eq]
  show (decrypt c _ (c.params key) >>= _) = _
  rw [decrypt, encryptOrDecrypt_eq, if_pos (by rw [hlength, hblocks]), c.decrypt_encrypt _ _ _ hblocks]
  show (if !checkSecretBytes s.bytes then _ else _) = _
  rw [s.checked]
  rfl

/-! ## Data -/

theorem paddingSize_spec (draw : UInt32) (size : Nat) :
    kMinPadding ≤ paddingSize draw size ∧ paddingSize draw size ≤ kMaxPadding ∧
      (paddingSize draw size + size) % kAlignTo = 0 := by
  have hdraw := Nat.mod_lt draw.toNat (show 0 < 208 by decide)
  have hpadding : paddingSize draw size =
      47 + draw.toNat % 208 - (size + (47 + draw.toNat % 208)) % 16 := rfl
  rw [hpadding, kMinPadding, kMaxPadding, kAlignTo]
  omega

def unencryptedData (bytes : Bytes) (draw : UInt32) (random : Nat → UInt8) : Bytes :=
  .ofNat (paddingSize draw bytes.length) ::
    (List.range (paddingSize draw bytes.length - 1)).map random ++ bytes

theorem length_unencryptedData (draw : UInt32) (random : Nat → UInt8) :
    (unencryptedData bytes draw random).length = paddingSize draw bytes.length + bytes.length := by
  obtain ⟨hmin, -⟩ := paddingSize_spec draw bytes.length
  rw [unencryptedData, List.cons_append, List.length_cons, List.length_append, List.length_map,
    List.length_range]
  rw [kMinPadding] at hmin
  omega

theorem drop_unencryptedData (draw : UInt32) (random : Nat → UInt8) :
    (unencryptedData bytes draw random).drop (paddingSize draw bytes.length) = bytes := by
  obtain ⟨hmin, -⟩ := paddingSize_spec draw bytes.length
  rw [unencryptedData]
  apply List.drop_left'
  rw [List.length_cons, List.length_map, List.length_range]
  rw [kMinPadding] at hmin
  omega

theorem encryptData_eq (draw : UInt32) (random : Nat → UInt8) :
    encryptData c bytes secret draw random =
      .ok ⟨secret, c.sha256 (unencryptedData bytes draw random),
        c.aesCbcEncrypt
          (c.params (secret ++ c.sha256 (unencryptedData bytes draw random))).key
          (c.params (secret ++ c.sha256 (unencryptedData bytes draw random))).iv
          (unencryptedData bytes draw random)⟩ := by
  obtain ⟨hmin, hmax, halign⟩ := paddingSize_spec draw bytes.length
  have hblocks : (unencryptedData bytes draw random).length % 16 = 0 := by
    rw [length_unencryptedData]
    exact halign
  have hencrypt := (@encryptOrDecrypt_eq c
    (secret ++ c.sha256 (unencryptedData bytes draw random))
    (unencryptedData bytes draw random) c.aesCbcEncrypt).trans (if_pos hblocks)
  rw [encryptData]
  dsimp only
  rw [if_neg (by simp; omega), if_neg (not_not_intro halign)]
  show (prepareAesParams c (secret ++ c.sha256 (unencryptedData bytes draw random)) >>= _) = _
  rw [prepareAesParams_eq]
  show (encryptOrDecrypt c.aesCbcEncrypt (unencryptedData bytes draw random) _ >>= _) = _
  rw [hencrypt]
  rfl

theorem decryptData_encryptData (hsecret : secret.length = kSecretSize) (draw : UInt32)
    (random : Nat → UInt8) :
    (encryptData c bytes secret draw random >>= fun result =>
      decryptData c result.bytes result.hash result.secret) = .ok bytes := by
  obtain ⟨hmin, hmax, halign⟩ := paddingSize_spec draw bytes.length
  have hlength := @length_unencryptedData bytes draw random
  have hdrop := @drop_unencryptedData bytes draw random
  have hfirst : (unencryptedData bytes draw random).head? =
      some (.ofNat (paddingSize draw bytes.length)) := rfl
  rw [encryptData_eq]
  generalize unencryptedData bytes draw random = data at hlength hdrop hfirst
  have hblocks : data.length % 16 = 0 := by
    rw [hlength]
    exact halign
  show decryptData c (c.aesCbcEncrypt _ _ data) (c.sha256 data) secret = _
  generalize hparams : c.params (secret ++ c.sha256 data) = params
  have hencrypted := c.length_encrypt params.key params.iv data
  have hnil : c.aesCbcEncrypt params.key params.iv data ≠ [] := by
    intro hnil
    rw [hnil, List.length_nil, hlength] at hencrypted
    rw [kMinPadding] at hmin
    omega
  have hdecrypt : decrypt c (c.aesCbcEncrypt params.key params.iv data) params = .ok data := by
    rw [← hparams] at hencrypted ⊢
    rw [decrypt, encryptOrDecrypt_eq, if_pos (by rw [hencrypted, hblocks]),
      c.decrypt_encrypt _ _ _ hblocks]
  have hhash : (c.sha256 data).length = kDataHashSize := c.length_sha256 data
  rw [decryptData, if_neg hnil, if_neg (not_not_intro hhash),
    if_neg (not_not_intro hsecret), prepareAesParams_eq, hparams]
  show (decrypt c _ params >>= _) = _
  rw [hdecrypt]
  show (if c.sha256 data ≠ c.sha256 data then _ else _) = _
  rw [if_neg (not_not_intro rfl), hfirst]
  dsimp only
  have hpadding : (UInt8.ofNat (paddingSize draw bytes.length)).toNat =
      paddingSize draw bytes.length := by
    rw [UInt8.toNat_ofNat', Nat.mod_eq_of_lt]
    rw [kMaxPadding] at hmax
    omega
  rw [hpadding, if_neg (by simp; omega), hdrop]

/-- Generated secrets are checked, the padding of data is right, and what is decrypted is what was
encrypted. -/
theorem passport_round_trip (c : Crypto) (random : Nat → UInt8) :
    checkSecretBytes (generateSecretBytes random) = true ∧
      (∀ (draw : UInt32) (size : Nat), kMinPadding ≤ paddingSize draw size ∧
        paddingSize draw size ≤ kMaxPadding ∧ (paddingSize draw size + size) % kAlignTo = 0) ∧
      (∀ (bytes : Bytes) (draw : UInt32) (padding : Nat → UInt8),
        (encryptData c bytes (generateSecretBytes random) draw padding >>= fun result =>
          decryptData c result.bytes result.hash result.secret) = .ok bytes) ∧
      ∀ (secret : SecretBytes) (key : Bytes),
        (encryptSecretBytes c secret.bytes key >>= fun encrypted =>
          decryptSecretBytes c encrypted key) = .ok secret.bytes := by
  refine ⟨checkSecretBytes_generateSecretBytes random, paddingSize_spec, ?_, ?_⟩
  · intro bytes draw padding
    exact decryptData_encryptData (length_generateSecretBytes random) draw padding
  · intro secret key
    exact decryptSecretBytes_encryptSecretBytes secret

/-! ## What the server sends -/

/-- The checks of `DecryptData` reject what is not in whole blocks, or there is nothing to check. -/
def Accepted (encrypted dataHash dataSecret : Bytes) : Prop :=
  encrypted = [] ∨ dataHash.length ≠ kDataHashSize ∨ dataSecret.length ≠ kSecretSize ∨
    encrypted.length % 16 = 0

/-- The plaintext of data whose hash is right. -/
def IsPlaintext (c : Crypto) (encrypted dataHash dataSecret result : Bytes) : Prop :=
  ∃ padding : UInt8, c.sha256 (c.aesCbcDecrypt (c.params (dataSecret ++ dataHash)).key
      (c.params (dataSecret ++ dataHash)).iv encrypted) = dataHash ∧
    (c.aesCbcDecrypt (c.params (dataSecret ++ dataHash)).key
      (c.params (dataSecret ++ dataHash)).iv encrypted).head? = some padding ∧
    result = (c.aesCbcDecrypt (c.params (dataSecret ++ dataHash)).key
      (c.params (dataSecret ++ dataHash)).iv encrypted).drop padding.toNat

variable {encrypted dataHash dataSecret encryptedSecret : Bytes}

theorem decryptData_returns (h : Accepted encrypted dataHash dataSecret) :
    ∃ result, decryptData c encrypted dataHash dataSecret = .ok result ∧
      (result = [] ∨ IsPlaintext c encrypted dataHash dataSecret result) := by
  rw [decryptData]
  split
  · exact ⟨[], rfl, .inl rfl⟩
  next hnil =>
    split
    · exact ⟨[], rfl, .inl rfl⟩
    next hhash =>
      split
      · exact ⟨[], rfl, .inl rfl⟩
      next hsecret =>
        have hblocks : encrypted.length % 16 = 0 := by
          rcases h with hempty | hwrong | hwrong | hblocks
          · exact absurd hempty hnil
          · exact absurd hwrong hhash
          · exact absurd hwrong hsecret
          · exact hblocks
        have hdecrypt := (@encryptOrDecrypt_eq c (dataSecret ++ dataHash) encrypted
          c.aesCbcDecrypt).trans (if_pos hblocks)
        have hlength := c.length_decrypt (c.params (dataSecret ++ dataHash)).key
          (c.params (dataSecret ++ dataHash)).iv encrypted
        unfold IsPlaintext
        rw [prepareAesParams_eq]
        show ∃ result, (encryptOrDecrypt c.aesCbcDecrypt encrypted
          (c.params (dataSecret ++ dataHash)) >>= _) = _ ∧ _
        rw [hdecrypt]
        generalize c.aesCbcDecrypt (c.params (dataSecret ++ dataHash)).key
          (c.params (dataSecret ++ dataHash)).iv encrypted = decrypted at hlength ⊢
        by_cases hright : c.sha256 decrypted = dataHash
        · obtain ⟨first, rest, rfl⟩ : ∃ first rest, decrypted = first :: rest := by
            cases decrypted with
            | nil =>
              rw [List.length_nil] at hlength
              exact absurd (List.length_eq_zero_iff.mp hlength.symm) hnil
            | cons first rest => exact ⟨first, rest, rfl⟩
          by_cases hpadding : first.toNat < kMinPadding || kMaxPadding < first.toNat ||
              (first :: rest).length < first.toNat
          · refine ⟨[], ?_, .inl rfl⟩
            show (if c.sha256 (first :: rest) ≠ dataHash then _ else if _ then _ else _) = _
            rw [if_neg (not_not_intro hright), if_pos hpadding]
          · refine ⟨(first :: rest).drop first.toNat, ?_, .inr ⟨first, hright, rfl, rfl⟩⟩
            show (if c.sha256 (first :: rest) ≠ dataHash then _ else if _ then _ else _) = _
            rw [if_neg (not_not_intro hright), if_neg hpadding]
        · refine ⟨[], ?_, .inl rfl⟩
          show (if c.sha256 decrypted ≠ dataHash then _ else _) = _
          rw [if_pos hright]

theorem decryptData_fails (h : ¬ Accepted encrypted dataHash dataSecret) :
    decryptData c encrypted dataHash dataSecret = .error .expects := by
  simp only [Accepted, not_or, not_not] at h
  obtain ⟨hnil, hhash, hsecret, hblocks⟩ := h
  rw [decryptData, if_neg hnil, if_neg (not_not_intro hhash), if_neg (not_not_intro hsecret),
    prepareAesParams_eq]
  show (encryptOrDecrypt c.aesCbcDecrypt encrypted (c.params (dataSecret ++ dataHash)) >>= _) = _
  rw [encryptOrDecrypt_eq, if_neg hblocks]
  rfl

theorem decryptSecretBytes_returns :
    ∃ result, decryptSecretBytes c encryptedSecret key = .ok result ∧
      (result = [] ∨ checkSecretBytes result = true ∧
        result = c.aesCbcDecrypt (c.params key).key (c.params key).iv encryptedSecret) := by
  rw [decryptSecretBytes, decryptSecretBytesWithHash]
  split
  · exact ⟨[], rfl, .inl rfl⟩
  · split
    · exact ⟨[], rfl, .inl rfl⟩
    next hsize =>
      rw [not_not] at hsize
      have hdecrypt := (@encryptOrDecrypt_eq c key encryptedSecret c.aesCbcDecrypt).trans
        (if_pos (by rw [hsize]; rfl))
      rw [prepareAesParamsWithHash_eq]
      show ∃ result, (encryptOrDecrypt c.aesCbcDecrypt encryptedSecret (c.params key) >>= _) = _ ∧ _
      rw [hdecrypt]
      generalize c.aesCbcDecrypt (c.params key).key (c.params key).iv encryptedSecret = result
      cases hcheck : checkSecretBytes result with
      | true =>
        refine ⟨result, ?_, .inr ⟨hcheck, rfl⟩⟩
        show (if !checkSecretBytes result then _ else _) = _
        rw [hcheck]
        rfl
      | false =>
        refine ⟨[], ?_, .inl rfl⟩
        show (if !checkSecretBytes result then _ else _) = _
        rw [hcheck]
        rfl

/-- Data is decrypted or rejected, without a check that fails or a byte that is read outside, for
whole blocks and for what is rejected before. -/
theorem decryption_returns_iff (c : Crypto)
    (encrypted dataHash dataSecret encryptedSecret key : Bytes) :
    ((∃ result, decryptData c encrypted dataHash dataSecret = .ok result ∧
          (result = [] ∨ IsPlaintext c encrypted dataHash dataSecret result)) ∧
        ∃ result, decryptSecretBytes c encryptedSecret key = .ok result ∧
          (result = [] ∨ checkSecretBytes result = true ∧
            result = c.aesCbcDecrypt (c.params key).key (c.params key).iv encryptedSecret)) ↔
      Accepted encrypted dataHash dataSecret := by
  constructor
  · intro h
    by_contra hnot
    obtain ⟨⟨result, hresult, -⟩, -⟩ := h
    rw [decryptData_fails hnot] at hresult
    cases hresult
  · intro h
    exact ⟨decryptData_returns h, decryptSecretBytes_returns⟩

def plainCrypto : Crypto where
  sha256 _ := List.replicate 32 0
  sha512 _ := List.replicate 64 0
  aesCbcEncrypt _ _ data := data
  aesCbcDecrypt _ _ data := data
  length_sha256 _ := List.length_replicate
  length_sha512 _ := List.length_replicate
  length_encrypt _ _ _ := rfl
  length_decrypt _ _ _ := rfl
  decrypt_encrypt _ _ _ _ := rfl

/-- One byte with a hash and a secret of the right sizes. -/
theorem decryptData_one_byte :
    ¬ ∀ (c : Crypto) (encrypted dataHash dataSecret : Bytes),
      ∃ result, decryptData c encrypted dataHash dataSecret = .ok result := by
  intro h
  obtain ⟨result, hresult⟩ :=
    h plainCrypto [1] (List.replicate 32 0) (List.replicate 32 0)
  rw [decryptData_fails (by simp [Accepted, kDataHashSize, kSecretSize])] at hresult
  cases hresult

end TelegramClient.Passport
