import Mathlib
import TelegramClient.Lib.LittleEndian

/-! `QDataStream` over an array of bytes: numbers with the highest byte first, raw bytes,
and byte vectors with their size in front (`storage/serialize_common.h`). -/

namespace TelegramClient

namespace DataStream

/-- A stream that is read: the bytes ahead, and whether the status is still `Ok`. -/
structure Source where
  bytes : List UInt8
  ok : Bool := true
  deriving DecidableEq, Repr

/-- Reads from a stream, or leaves the function on an error. -/
abbrev Reader := StateT Source Option

/-- Reading behind the end takes what is left and sets the status. -/
def readRaw (n : Nat) : Reader (List UInt8) := fun s =>
  some (s.bytes.take n, { bytes := s.bytes.drop n, ok := s.ok && decide (n ≤ s.bytes.length) })

def readUInt32 : Reader UInt32 := fun s =>
  some (if s.bytes.length < 4 then 0 else .ofNat (leValue (s.bytes.take 4).reverse),
    { bytes := s.bytes.drop 4, ok := s.ok && decide (4 ≤ s.bytes.length) })

def readInt32 : Reader Int32 := UInt32.toInt32 <$> readUInt32

def status : Reader Bool := fun s => some (s.ok, s)

def stopUnless (p : Bool) : Reader Unit := fun s => if p then some ((), s) else none

def writeUInt32 (v : UInt32) : List UInt8 := bigEndian v.toNat

def writeInt32 (v : Int32) : List UInt8 := writeUInt32 v.toUInt32

/-- `Serialize::bytes`, written. -/
def writeBytes (bytes : List UInt8) : List UInt8 :=
  if bytes = [] then writeUInt32 0xFFFFFFFF else writeUInt32 (.ofNat bytes.length) ++ bytes

/-- `Serialize::bytes`, read: the vector stays empty when its size is not read. -/
def readBytes : Reader (List UInt8) := do
  let len ← readUInt32
  let ok ← status
  if !ok || len == 0xFFFFFFFF then
    return []
  else
    readRaw len.toNat

/-! ### Reading what was written -/

variable {α β : Type} {x : Reader α} {f : α → Reader β} {s s' : Source} {a : α}

theorem bind_some (h : x s = some (a, s')) : (x >>= f) s = f a s' := by
  change (x s).bind (fun p => f p.1 p.2) = f a s'
  rw [h]
  rfl

theorem bind_none (h : x s = none) : (x >>= f) s = none := by
  change (x s).bind (fun p => f p.1 p.2) = none
  rw [h]
  rfl

theorem stopUnless_true {f : Unit → Reader β} (p : Bool) (hp : p = true) :
    (stopUnless p >>= f) s = f () s := by
  rw [hp]
  rfl

theorem stopUnless_false {f : Unit → Reader β} (p : Bool) (hp : p = false) :
    (stopUnless p >>= f) s = none := by
  rw [hp]
  rfl

theorem readRaw_append (bytes rest : List UInt8) (ok : Bool) :
    readRaw bytes.length ⟨bytes ++ rest, ok⟩ = some (bytes, ⟨rest, ok⟩) := by
  simp [readRaw]

theorem length_writeUInt32 (v : UInt32) : (writeUInt32 v).length = 4 := length_bigEndian _

theorem readUInt32_append (v : UInt32) (rest : List UInt8) (ok : Bool) :
    readUInt32 ⟨writeUInt32 v ++ rest, ok⟩ = some (v, ⟨rest, ok⟩) := by
  have hlen := length_writeUInt32 v
  have htake : (writeUInt32 v ++ rest).take 4 = writeUInt32 v := List.take_left' hlen
  have hdrop : (writeUInt32 v ++ rest).drop 4 = rest := List.drop_left' hlen
  have hle : 4 ≤ (writeUInt32 v ++ rest).length := by
    rw [List.length_append, hlen]
    omega
  have hvalue : UInt32.ofNat (leValue (writeUInt32 v).reverse) = v := by
    rw [writeUInt32, bigEndian, List.reverse_reverse, leValue_leBytes_of_lt v.toNat_lt]
    simp
  rw [readUInt32]
  dsimp only
  rw [if_neg (by omega), htake, hdrop, hvalue, decide_eq_true hle, Bool.and_true]

theorem readInt32_append (v : Int32) (rest : List UInt8) (ok : Bool) :
    readInt32 ⟨writeInt32 v ++ rest, ok⟩ = some (v, ⟨rest, ok⟩) := by
  have h := bind_some (f := fun v => pure v.toInt32) (readUInt32_append v.toUInt32 rest ok)
  exact h

theorem toNat_size {n : Nat} (h : n < 2 ^ 32 - 1) :
    (UInt32.ofNat n).toNat = n ∧ UInt32.ofNat n ≠ 0xFFFFFFFF := by
  have hsize : (UInt32.ofNat n).toNat = n := by
    rw [UInt32.toNat_ofNat', Nat.mod_eq_of_lt (by omega)]
  constructor
  · exact hsize
  · intro hnull
    have hn := congrArg UInt32.toNat hnull
    rw [hsize] at hn
    simp only [UInt32.reduceToNat] at hn
    omega

theorem readBytes_append {bytes : List UInt8} (hl : bytes.length < 2 ^ 31) (rest : List UInt8) :
    readBytes ⟨writeBytes bytes ++ rest, true⟩ = some (bytes, ⟨rest, true⟩) := by
  rw [readBytes, writeBytes]
  by_cases hempty : bytes = []
  · rw [if_pos hempty, bind_some (readUInt32_append _ _ _), hempty]
    rfl
  · obtain ⟨hsize, hne⟩ := toNat_size (by omega : bytes.length < 2 ^ 32 - 1)
    rw [if_neg hempty, List.append_assoc, bind_some (readUInt32_append _ _ _)]
    have hstatus : status ⟨bytes ++ rest, true⟩ = some (true, ⟨bytes ++ rest, true⟩) := rfl
    rw [bind_some hstatus, if_neg (by simpa using hne), hsize, readRaw_append]

/-! ### Arrays and strings of Qt -/

/-- A `QByteArray`, read: it is cleared when its bytes are not all there. -/
def readByteArray : Reader (List UInt8) := fun s => do
  let (len, s) ← readUInt32 s
  if len = 0xFFFFFFFF then some ([], s)
  else if s.bytes.length < len.toNat then some ([], ⟨[], false⟩)
  else some (s.bytes.take len.toNat, { s with bytes := s.bytes.drop len.toNat })

def utf16Bytes (text : List UInt16) : List UInt8 :=
  text.flatMap fun u => [.ofNat (u.toNat / 256), .ofNat u.toNat]

def utf16OfBytes : List UInt8 → List UInt16
  | high :: low :: rest => .ofNat (256 * high.toNat + low.toNat) :: utf16OfBytes rest
  | _ => []

/-- A `QString`, written. An empty one is written as the null string. -/
def writeString (text : List UInt16) : List UInt8 := writeBytes (utf16Bytes text)

def readString : Reader (List UInt16) := fun s => do
  let (len, s) ← readUInt32 s
  if len = 0xFFFFFFFF then some ([], s)
  else if len % 2 = 1 then some ([], { s with ok := false })
  else if s.bytes.length < len.toNat then some ([], ⟨[], false⟩)
  else some (utf16OfBytes (s.bytes.take len.toNat), { s with bytes := s.bytes.drop len.toNat })

theorem length_utf16Bytes (text : List UInt16) : (utf16Bytes text).length = 2 * text.length := by
  induction text with
  | nil => rfl
  | cons u text ih =>
    simp only [utf16Bytes, List.flatMap_cons, List.length_append, List.length_cons,
      List.length_nil] at ih ⊢
    omega

theorem utf16OfBytes_utf16Bytes (text : List UInt16) : utf16OfBytes (utf16Bytes text) = text := by
  induction text with
  | nil => rfl
  | cons u text ih =>
    have hlow : (UInt8.ofNat u.toNat).toNat = u.toNat % 256 := by simp
    have hhigh : (UInt8.ofNat (u.toNat / 256)).toNat = u.toNat / 256 := by
      have := u.toNat_lt
      simp only [UInt8.toNat_ofNat']
      omega
    have hunit : UInt16.ofNat (256 * (u.toNat / 256) + u.toNat % 256) = u := by
      rw [Nat.div_add_mod, UInt16.ofNat_toNat]
    rw [utf16Bytes, List.flatMap_cons, List.cons_append, List.cons_append, List.nil_append,
      utf16OfBytes, hlow, hhigh, hunit]
    exact congrArg _ ih

theorem length_le_writeBytes (bytes : List UInt8) : bytes.length ≤ (writeBytes bytes).length := by
  rw [writeBytes]
  split
  · simp [*]
  · simp

theorem readByteArray_append {bytes : List UInt8} (hl : bytes.length < 2 ^ 31)
    (rest : List UInt8) :
    readByteArray ⟨writeBytes bytes ++ rest, true⟩ = some (bytes, ⟨rest, true⟩) := by
  rw [readByteArray, writeBytes]
  by_cases hempty : bytes = []
  · rw [if_pos hempty, readUInt32_append, hempty]
    rfl
  · obtain ⟨hsize, hne⟩ := toNat_size (by omega : bytes.length < 2 ^ 32 - 1)
    rw [if_neg hempty, List.append_assoc, readUInt32_append]
    simp [hne, hsize]

theorem length_lt_of_utf16Bytes {text : List UInt16} (h : (utf16Bytes text).length < 2 ^ 31) :
    text.length < 2 ^ 31 := by
  have hlen := length_utf16Bytes text
  omega

theorem readString_append {text : List UInt16} (hl : text.length < 2 ^ 31)
    (rest : List UInt8) :
    readString ⟨writeString text ++ rest, true⟩ = some (text, ⟨rest, true⟩) := by
  have hlen := length_utf16Bytes text
  rw [readString, writeString, writeBytes]
  by_cases hempty : utf16Bytes text = []
  · have htext : text = [] := by
      rw [← utf16OfBytes_utf16Bytes text, hempty]
      rfl
    rw [if_pos hempty, readUInt32_append, htext]
    rfl
  · obtain ⟨hsize, hne⟩ := toNat_size (by omega : (utf16Bytes text).length < 2 ^ 32 - 1)
    have heven : UInt32.ofNat (utf16Bytes text).length % 2 ≠ 1 := by
      intro h
      have hn := congrArg UInt32.toNat h
      rw [UInt32.toNat_mod, hsize] at hn
      simp only [UInt32.reduceToNat] at hn
      omega
    rw [if_neg hempty, List.append_assoc, readUInt32_append]
    simp [hne, heven, hsize, utf16OfBytes_utf16Bytes]

/-! ### Numbers of other sizes -/

def writeNumber (size v : Nat) : List UInt8 := (leBytes size v).reverse

def readNumber (size : Nat) : Reader Nat := fun s =>
  some (if s.bytes.length < size then 0 else leValue (s.bytes.take size).reverse,
    { bytes := s.bytes.drop size, ok := s.ok && decide (size ≤ s.bytes.length) })

def writeUInt8 (v : UInt8) : List UInt8 := writeNumber 1 v.toNat

def writeUInt16 (v : UInt16) : List UInt8 := writeNumber 2 v.toNat

def writeUInt64 (v : UInt64) : List UInt8 := writeNumber 8 v.toNat

def readUInt8 : Reader UInt8 := UInt8.ofNat <$> readNumber 1

def readUInt16 : Reader UInt16 := UInt16.ofNat <$> readNumber 2

def readUInt64 : Reader UInt64 := UInt64.ofNat <$> readNumber 8

theorem length_writeNumber (size v : Nat) : (writeNumber size v).length = size := by
  rw [writeNumber, List.length_reverse, length_leBytes]

theorem readNumber_append {size v : Nat} (h : v < 256 ^ size) (rest : List UInt8) (ok : Bool) :
    readNumber size ⟨writeNumber size v ++ rest, ok⟩ = some (v, ⟨rest, ok⟩) := by
  have hlen := length_writeNumber size v
  have htake : (writeNumber size v ++ rest).take size = writeNumber size v := List.take_left' hlen
  have hdrop : (writeNumber size v ++ rest).drop size = rest := List.drop_left' hlen
  have hle : size ≤ (writeNumber size v ++ rest).length := by
    rw [List.length_append, hlen]
    omega
  have hvalue : leValue (writeNumber size v).reverse = v := by
    rw [writeNumber, List.reverse_reverse, leValue_leBytes_of_lt h]
  rw [readNumber]
  dsimp only
  rw [if_neg (by omega), htake, hdrop, hvalue, decide_eq_true hle, Bool.and_true]

theorem map_some {g : α → β} (h : x s = some (a, s')) : (g <$> x) s = some (g a, s') := by
  change (x s).bind (fun p => some (g p.1, p.2)) = some (g a, s')
  rw [h]
  rfl

theorem readUInt8_append (v : UInt8) (rest : List UInt8) (ok : Bool) :
    readUInt8 ⟨writeUInt8 v ++ rest, ok⟩ = some (v, ⟨rest, ok⟩) := by
  have hread := @readNumber_append 1 v.toNat v.toNat_lt rest ok
  rw [readUInt8, writeUInt8, map_some hread, UInt8.ofNat_toNat]

theorem readUInt16_append (v : UInt16) (rest : List UInt8) (ok : Bool) :
    readUInt16 ⟨writeUInt16 v ++ rest, ok⟩ = some (v, ⟨rest, ok⟩) := by
  have hread := @readNumber_append 2 v.toNat v.toNat_lt rest ok
  rw [readUInt16, writeUInt16, map_some hread, UInt16.ofNat_toNat]

theorem readUInt64_append (v : UInt64) (rest : List UInt8) (ok : Bool) :
    readUInt64 ⟨writeUInt64 v ++ rest, ok⟩ = some (v, ⟨rest, ok⟩) := by
  have hread := @readNumber_append 8 v.toNat v.toNat_lt rest ok
  rw [readUInt64, writeUInt64, map_some hread, UInt64.ofNat_toNat]

end DataStream

end TelegramClient
