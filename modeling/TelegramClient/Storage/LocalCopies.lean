import Mathlib
import TelegramClient.Storage.LocalFileFormat

/-! The two copies of one name in the local storage: which of them is written and which
is removed, and in which order they are read. -/

namespace TelegramClient

/-- A file on the disk with its time of modification. -/
structure Copy where
  bytes : List UInt8
  modified : Nat
  deriving DecidableEq, Repr

/-- The files `name + '0'` and `name + '1'`. -/
structure LocalCopies where
  copy0 : Option Copy := none
  copy1 : Option Copy := none
  deriving DecidableEq, Repr

/-- The last character of a file name. -/
inductive CopyName where
  | zero
  | one
  deriving DecidableEq, Repr

def CopyName.other : CopyName → CopyName
  | .zero => .one
  | .one => .zero

namespace LocalCopies

def get (d : LocalCopies) : CopyName → Option Copy
  | .zero => d.copy0
  | .one => d.copy1

def set (d : LocalCopies) (name : CopyName) (copy : Option Copy) : LocalCopies :=
  match name with
  | .zero => { d with copy0 := copy }
  | .one => { d with copy1 := copy }

/-- `QFile::remove`, for a name that may be empty. -/
def remove (d : LocalCopies) : Option CopyName → LocalCopies
  | none => d
  | some name => d.set name none

/-! ### FileWriteDescriptor -/

/-- The order found by `init`: the copy to write and the one to delete. -/
def toWrite (safe : Bool) (d : LocalCopies) : CopyName × Option CopyName :=
  if safe then
    match d.copy0, d.copy1 with
    | some copy0, some copy1 =>
      if copy1.modified < copy0.modified then (.one, some .zero) else (.zero, some .one)
    | some _, none => (.one, some .zero)
    | none, some _ => (.zero, some .one)
    | none, none => (.zero, none)
  else (.zero, none)

/-- A descriptor from its creation to `finish`, at a time `now`. -/
def writeFile (safe : Bool) (device : Device) (now : Nat) (d : LocalCopies)
    (arrays : List QByteArray) : LocalCopies :=
  let order := d.toWrite safe
  if device.opens then
    (d.set order.1 (some ⟨(FileWriteDescriptor.writeAll device arrays).file, now⟩)).remove order.2
  else d

/-- A descriptor that stops before it has created its file, or with some bytes of it written
and the other copy not removed yet. -/
def stopWrite (safe : Bool) (device : Device) (now : Nat) (d : LocalCopies)
    (arrays : List QByteArray) : Option Nat → LocalCopies
  | none => d
  | some n =>
    d.set (d.toWrite safe).1
      (some ⟨(FileWriteDescriptor.writeAll device arrays).file.take n, now⟩)

/-! ### readFile -/

/-- The order of the attempts. -/
def toRead (safe : Bool) (d : LocalCopies) : CopyName × Option CopyName :=
  if safe then
    match d.copy0, d.copy1 with
    | some copy0, some copy1 =>
      if copy0.modified < copy1.modified then (.one, some .zero) else (.zero, some .one)
    | some _, none => (.zero, none)
    | none, _ => (.one, none)
  else (.zero, none)

def tryRead (qt : Qt) (d : LocalCopies) (name : CopyName) : Option (Int × List UInt8) :=
  match d.get name with
  | none => none
  | some copy => readCopy qt copy.bytes

def readFile (qt : Qt) (safe : Bool) (d : LocalCopies) :
    Option (Int × List UInt8) × LocalCopies :=
  let order := d.toRead safe
  match tryRead qt d order.1 with
  | some result => (some result, d.remove order.2)
  | none =>
    match order.2 with
    | none => (none, d)
    | some second =>
      match tryRead qt d second with
      | none => (none, d)
      | some result => (some result, d.remove (some order.1))

/-! ### Which copies are left -/

theorem get_set (d : LocalCopies) (name other : CopyName) (copy : Option Copy) :
    (d.set name copy).get other = if other = name then copy else d.get other := by
  cases name <;> cases other <;> rfl

theorem get_remove (d : LocalCopies) (name other : CopyName) :
    (d.remove (some name)).get other = if other = name then none else d.get other :=
  get_set d name other none

theorem other_ne (name : CopyName) : name.other ≠ name := by
  cases name <;> decide

theorem eq_or_eq_other (name other : CopyName) : other = name ∨ other = name.other := by
  cases name <;> cases other <;> decide

/-- The copy that is deleted is the other one, and it is deleted whenever it is there. -/
theorem toWrite_snd (d : LocalCopies) :
    (d.toWrite true).2 =
      if (d.get (d.toWrite true).1.other).isSome then some (d.toWrite true).1.other else none := by
  rw [toWrite]
  cases h0 : d.copy0 with
  | none => cases h1 : d.copy1 <;> simp [get, h1, CopyName.other]
  | some copy0 =>
    cases h1 : d.copy1 with
    | none => simp [get, h0, CopyName.other]
    | some copy1 =>
      by_cases hlt : copy1.modified < copy0.modified <;> simp [get, h0, h1, hlt, CopyName.other]

theorem get_writeFile {device : Device} (hopens : device.opens = true) (now : Nat)
    (d : LocalCopies) (arrays : List QByteArray) :
    (d.writeFile true device now arrays).get (d.toWrite true).1 =
        some ⟨(FileWriteDescriptor.writeAll device arrays).file, now⟩ ∧
      (d.writeFile true device now arrays).get (d.toWrite true).1.other = none := by
  have hne := other_ne (d.toWrite true).1
  rw [writeFile, if_pos hopens]
  by_cases hsome : (d.get (d.toWrite true).1.other).isSome = true
  · rw [toWrite_snd d, if_pos hsome]
    simp only [get_remove, get_set, if_neg hne, if_neg hne.symm, if_true, and_self]
  · rw [toWrite_snd d, if_neg hsome]
    rw [Option.not_isSome_iff_eq_none] at hsome
    simp only [remove, get_set, if_neg hne, if_true, hsome, and_self]

theorem toRead_alone {d : LocalCopies} {name : CopyName} {copy : Copy}
    (hget : d.get name = some copy) (hother : d.get name.other = none) :
    d.toRead true = (name, none) := by
  cases name <;> simp only [get, CopyName.other] at hget hother <;>
    simp [toRead, hget, hother]

theorem readFile_alone {qt : Qt} {safe : Bool} {d : LocalCopies} {name : CopyName} {copy : Copy}
    (horder : d.toRead safe = (name, none)) (hget : d.get name = some copy) :
    d.readFile qt safe = (readCopy qt copy.bytes, d) := by
  have htry : d.tryRead qt name = readCopy qt copy.bytes := by
    rw [tryRead, hget]
  rw [readFile, horder]
  dsimp only
  rw [htry]
  cases readCopy qt copy.bytes <;> rfl

/-- What is read back once a descriptor has finished is what its file holds. -/
theorem readFile_writeFile {qt : Qt} {device : Device} (hopens : device.opens = true) (safe : Bool)
    (now : Nat) (d : LocalCopies) (arrays : List QByteArray) :
    ((d.writeFile safe device now arrays).readFile qt safe).1 =
      readCopy qt (FileWriteDescriptor.writeAll device arrays).file := by
  cases safe with
  | true =>
    obtain ⟨hget, hother⟩ := get_writeFile hopens now d arrays
    rw [readFile_alone (toRead_alone hget hother) hget]
  | false =>
    have hget : (d.writeFile false device now arrays).get .zero =
        some ⟨(FileWriteDescriptor.writeAll device arrays).file, now⟩ := by
      rw [writeFile, if_pos hopens]
      rfl
    rw [readFile_alone rfl hget]

theorem readFile_eq_some {qt : Qt} {safe : Bool} {d : LocalCopies} {result : Int × List UInt8}
    (h : (d.readFile qt safe).1 = some result) :
    ∃ (name : CopyName) (copy : Copy), d.get name = some copy ∧
      readCopy qt copy.bytes = some result := by
  have htry : ∀ name : CopyName, d.tryRead qt name = some result → ∃ copy : Copy,
      d.get name = some copy ∧ readCopy qt copy.bytes = some result := by
    intro name hname
    rw [tryRead] at hname
    cases hget : d.get name with
    | none => simp [hget] at hname
    | some copy =>
      rw [hget] at hname
      exact ⟨copy, rfl, hname⟩
  rw [readFile] at h
  cases hfirst : d.tryRead qt (d.toRead safe).1 with
  | some first =>
    rw [hfirst] at h
    cases h
    exact ⟨_, htry _ hfirst⟩
  | none =>
    rw [hfirst] at h
    dsimp only at h
    cases hsecond : (d.toRead safe).2 with
    | none => simp [hsecond] at h
    | some second =>
      rw [hsecond] at h
      dsimp only at h
      cases hread : d.tryRead qt second with
      | none => simp [hread] at h
      | some last =>
        rw [hread] at h
        cases h
        exact ⟨_, htry _ hread⟩

end LocalCopies

end TelegramClient
