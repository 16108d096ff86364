import Mathlib
import TelegramClient.Lib.CounterMode
import TelegramClient.Storage.ByteFile

/-! The cipher of the files: AES in counter mode, started at any block of the
file by adding the number of the block to the initial vector. -/

namespace TelegramClient

/-- What the files use of the cryptographic library. -/
structure OpenSsl where
  aesEncrypt : List UInt8 → List UInt8 → List UInt8
  sha256 : List UInt8 → List UInt8
  length_aesEncrypt : ∀ key block, (aesEncrypt key block).length = 16
  length_sha256 : ∀ data, (sha256 data).length = 32

/-- `CRYPTO_ctr128_encrypt`: successive blocks under the counters `ivec`,
`ivec + 1` and so on, as numbers of 128 bits with the highest byte first. -/
def ctr128Encrypt (cipher : List UInt8 → List UInt8) (data ivec : List UInt8) : List UInt8 :=
  CounterMode.encryptBlocks cipher (data.length / kBlockSize) ivec data

structure CtrState where
  key : List UInt8
  iv : List UInt8
  length_key : key.length = 32
  length_iv : iv.length = 16

/-- The loop of `incrementedIv`, from the last byte of the vector to the first. -/
def addDigits : List UInt8 → UInt64 → List UInt8
  | [], _ => []
  | digit :: digits, increment =>
    let sum := increment + digit.toUInt64
    let increment := sum >>> 8
    (sum &&& 0xFF).toUInt8 :: if increment = 0 then digits else addDigits digits increment

namespace CtrState

def incrementedIv (s : CtrState) (blockIndex : Nat) : List UInt8 :=
  if blockIndex = 0 then s.iv
  else (addDigits s.iv.reverse (.ofNat blockIndex)).reverse

def process (ssl : OpenSsl) (s : CtrState) (data : List UInt8) (offset : Nat) :
    Run (List UInt8) :=
  if data.length % kBlockSize ≠ 0 ∨ offset % kBlockSize ≠ 0 then .error .assertion
  else
    .ok (ctr128Encrypt (ssl.aesEncrypt s.key) data (s.incrementedIv (offset / kBlockSize)))

def encrypt (ssl : OpenSsl) (s : CtrState) (data : List UInt8) (offset : Nat) :
    Run (List UInt8) := s.process ssl data offset

def decrypt (ssl : OpenSsl) (s : CtrState) (data : List UInt8) (offset : Nat) :
    Run (List UInt8) := s.process ssl data offset

end CtrState

def kSaltSize : Nat := 64

structure EncryptionKey where
  data : List UInt8
  length_data : data.length = 256

def EncryptionKey.prepareCtrState (ssl : OpenSsl) (key : EncryptionKey) (salt : List UInt8) :
    CtrState where
  key := ssl.sha256 (key.data.take 128 ++ salt.take (kSaltSize / 2))
  iv := (ssl.sha256 (key.data.drop 128 ++ salt.drop (kSaltSize / 2))).take 16
  length_key := ssl.length_sha256 _
  length_iv := by rw [List.length_take, ssl.length_sha256]; rfl

/-! ### The loop adds the number of the block to the vector -/

theorem length_addDigits (digits : List UInt8) (increment : UInt64) :
    (addDigits digits increment).length = digits.length := by
  induction digits generalizing increment with
  | nil => rfl
  | cons digit digits ih =>
    rw [addDigits]
    split <;> simp [ih]

theorem leValue_addDigits (digits : List UInt8) {increment : UInt64}
    (h : increment.toNat + 256 ≤ 2 ^ 64) :
    leValue (addDigits digits increment) =
      (leValue digits + increment.toNat) % 256 ^ digits.length := by
  induction digits generalizing increment with
  | nil => simp [addDigits, leValue, Nat.mod_one]
  | cons digit digits ih =>
    have hd := digit.toNat_lt
    have hsum : (increment + digit.toUInt64).toNat = increment.toNat + digit.toNat := by
      rw [UInt64.toNat_add, UInt8.toNat_toUInt64, Nat.mod_eq_of_lt (by omega)]
    have hlow : ((increment + digit.toUInt64) &&& 0xFF).toUInt8.toNat =
        (increment.toNat + digit.toNat) % 256 := by
      rw [UInt64.toNat_toUInt8, UInt64.toNat_and, hsum]
      have := Nat.and_two_pow_sub_one_eq_mod (increment.toNat + digit.toNat) 8
      simp only [Nat.reducePow, Nat.reduceSub] at this
      rw [show UInt64.toNat 0xFF = 255 from rfl, this, Nat.mod_mod]
    have hhigh : ((increment + digit.toUInt64) >>> 8).toNat =
        (increment.toNat + digit.toNat) / 256 := by
      rw [UInt64.toNat_shiftRight, hsum, Nat.shiftRight_eq_div_pow]
      rfl
    have htail : leValue (if (increment + digit.toUInt64) >>> 8 = 0 then digits
        else addDigits digits ((increment + digit.toUInt64) >>> 8)) =
        (leValue digits + (increment.toNat + digit.toNat) / 256) % 256 ^ digits.length := by
      by_cases hz : (increment + digit.toUInt64) >>> 8 = 0
      · rw [if_pos hz, ← hhigh, hz]
        exact (Nat.mod_eq_of_lt (leValue_lt digits)).symm
      · rw [if_neg hz, ih (by omega), hhigh]
    rw [addDigits, leValue, leValue, hlow, htail, List.length_cons, Nat.pow_succ', Nat.mod_mul]
    have hquot : (digit.toNat + 256 * leValue digits + increment.toNat) / 256 =
        leValue digits + (increment.toNat + digit.toNat) / 256 := by omega
    rw [hquot]
    omega

theorem CtrState.incrementedIv_eq (s : CtrState) {blockIndex : Nat} (h : blockIndex < 2 ^ 63) :
    s.incrementedIv blockIndex = CounterMode.add s.iv blockIndex := by
  by_cases hz : blockIndex = 0
  · rw [incrementedIv, if_pos hz, hz, CounterMode.add_zero]
  · have hto : (UInt64.ofNat blockIndex).toNat = blockIndex := by
      rw [UInt64.toNat_ofNat', Nat.mod_eq_of_lt (by omega)]
    have hv := leValue_addDigits s.iv.reverse (show (UInt64.ofNat blockIndex).toNat + 256 ≤ 2 ^ 64 by omega)
    rw [incrementedIv, if_neg hz, CounterMode.add]
    apply congrArg List.reverse
    apply leValue_inj
    · rw [length_addDigits, length_leBytes, List.length_reverse]
    · rw [hv, leValue_leBytes, hto, List.length_reverse]

/-- The bytes of a file under the keystream of its state, from an offset on. -/
def CtrState.mask (ssl : OpenSsl) (s : CtrState) (offset : Nat) (data : List UInt8) : List UInt8 :=
  CounterMode.xorFrom (ssl.aesEncrypt s.key) s.iv offset data

theorem CtrState.process_eq (ssl : OpenSsl) (s : CtrState) (data : List UInt8) (offset : Nat)
    (hd : data.length % kBlockSize = 0) (ho : offset % kBlockSize = 0) (hlt : offset < 2 ^ 63) :
    s.process ssl data offset = .ok (s.mask ssl offset data) := by
  have hk : CounterMode.blockSize * (offset / kBlockSize) = offset := by
    simp only [CounterMode.blockSize, kBlockSize] at ho ⊢
    omega
  have hn : data.length = CounterMode.blockSize * (data.length / kBlockSize) := by
    simp only [CounterMode.blockSize, kBlockSize] at hd ⊢
    omega
  have hlt : offset / kBlockSize < 2 ^ 63 := (Nat.div_le_self _ _).trans_lt hlt
  rw [process, if_neg (by simp [hd, ho]), ctr128Encrypt, s.incrementedIv_eq hlt,
    CounterMode.encryptBlocks_eq (ssl.length_aesEncrypt s.key) _ _ hn, hk, mask]

end TelegramClient
