import Mathlib
import TelegramClient.Storage.LocalCopies

/-! Writes of a local file whose steps fail, for example on a full disk: `finish` removes
the previous copy all the same. -/

namespace TelegramClient

namespace LocalCopies

/-- What can be done to one name: a read, a write through a device, and a write that stops
on the way. -/
inductive Event where
  | read
  | write (device : Device) (now : Nat) (arrays : List QByteArray)
  | stop (now : Nat) (arrays : List QByteArray) (written : Option Nat)

def step (qt : Qt) (d : LocalCopies) : Event → LocalCopies
  | .read => (d.readFile qt true).2
  | .write device now arrays => d.writeFile true device now arrays
  | .stop now arrays written => d.stopWrite true {} now arrays written

def run (qt : Qt) (d : LocalCopies) (events : List Event) : LocalCopies := events.foldl (step qt) d

/-- The payloads of the last write none of whose steps failed. -/
def lastWritten (events : List Event) : Option (List QByteArray) :=
  events.foldl (fun last e =>
    match e with
    | .write device _ arrays =>
      if device.opens ∧ (FileWriteDescriptor.writeAll device arrays).failed = false then some arrays
      else last
    | _ => last) none

end LocalCopies

/-- The reader does not look behind what one read of the file returns. -/
theorem readCopy_take (qt : Qt) (f : List UInt8) :
    readCopy qt (f.take (8 + qt.maxSize)) = readCopy qt f := by
  have hmagic : (f.take (8 + qt.maxSize)).take 4 = f.take 4 := by
    rw [List.take_take, Nat.min_eq_left (by omega)]
  have hversion : ((f.take (8 + qt.maxSize)).drop 4).take 4 = (f.drop 4).take 4 := by
    rw [List.drop_take, List.take_take, Nat.min_eq_left (by omega)]
  have hbytes : ((f.take (8 + qt.maxSize)).drop 8).take
      (min (f.take (8 + qt.maxSize)).length qt.maxSize) =
      (f.drop 8).take (min f.length qt.maxSize) := by
    rw [List.drop_take, List.take_take, List.take_eq_take_iff, List.length_take, List.length_drop]
    omega
  rw [readCopy, hmagic, hversion, hbytes]
  rfl

theorem leBytes_of_asInt32 {bytes : List UInt8} (hlen : bytes.length = 4)
    (h : asInt32 (leValue bytes) = (AppVersion : Int)) : bytes = leBytes 4 AppVersion := by
  have hlt := leValue_lt bytes
  rw [hlen] at hlt
  have hv : leValue bytes = AppVersion := by
    rw [asInt32] at h
    simp only [AppVersion] at h ⊢
    split at h <;> omega
  rw [← leBytes_leValue bytes, hlen, hv]

/-- A copy is read as some payloads only if it is their complete file, up to what one read
returns. -/
theorem readCopy_eq_iff {qt : Qt} {f : List UInt8} {arrays : List QByteArray} :
    readCopy qt f = some ((AppVersion : Int), streamOf arrays) ↔
      f.take (8 + qt.maxSize) = fileBytes arrays := by
  constructor
  · intro h
    obtain ⟨hmagic, hlen, hversion, -, hbytes⟩ := readCopy_eq_some h
    have hword := leBytes_of_asInt32 hlen hversion
    have hmin : (f.drop 8).take (min f.length qt.maxSize) = (f.drop 8).take qt.maxSize := by
      rw [List.take_eq_take_iff, List.length_drop]
      omega
    have hsplit : f.take (8 + qt.maxSize) =
        f.take 4 ++ ((f.drop 4).take 4 ++ (f.drop 8).take qt.maxSize) := by
      rw [show 8 + qt.maxSize = 4 + (4 + qt.maxSize) by omega, List.take_add, List.take_add,
        List.drop_drop]
    rw [hsplit, ← hmin, hbytes, hmagic, hword, fileBytes, List.append_assoc, List.append_assoc]
  · intro h
    have hfits := congrArg List.length h
    rw [fileBytes, List.length_append, List.length_append, length_signature, List.length_take]
      at hfits
    have hheader : (tdfMagic ++ leBytes 4 AppVersion).length = 8 := rfl
    rw [← readCopy_take, h]
    exact readCopy_fileBytes (by omega)

namespace LocalCopies

/-- A disk that is full. -/
def fullDisk : Device := { takes := fun _ => some 0 }

def savedOnce : List Event := [.write {} 1 [some [0x61]]]

end LocalCopies

end TelegramClient
