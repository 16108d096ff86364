import Mathlib

/-! A file as its users see it: the bytes it holds and the place where the next
call reads or writes. Lengths and offsets are multiples of the cipher block. -/

namespace TelegramClient

/-- Why a call does not return: a failed `Expects` or `Assert` ends the process,
a loop may still be running when the steps given to it are over, and a call of
the operating system may be refused. A counter that would fall below zero stops
the model too, where the source has no check. -/
inductive Stop where
  | assertion
  | running
  | refused
  | underflow
  deriving DecidableEq, Repr

abbrev Run := Except Stop

def kBlockSize : Nat := 16

/-- `readWithPadding` over a reader of whole blocks: the last block is read whole
and cut. -/
def readPadded {σ : Type} (read : σ → Nat → Run (List UInt8 × σ)) (f : σ) (size : Nat) :
    Run (List UInt8 × σ) :=
  let part := size % kBlockSize
  let good := size - part
  match (if good = 0 then .ok ([], f) else read f good) with
  | .error stop => .error stop
  | .ok (bytes, f) =>
    if bytes.length ≠ good ∨ part = 0 then .ok (bytes, f)
    else
      match read f kBlockSize with
      | .error stop => .error stop
      | .ok ([], f) => .ok (bytes, f)
      | .ok (padded, f) =>
        if padded.length ≠ kBlockSize then .error .assertion
        else .ok (bytes ++ padded.take part, f)

/-- `writeWithPadding` over a writer of whole blocks: the last block is filled up
with random bytes, and `back` undoes the whole blocks when it fails. -/
def writePadded {σ : Type} (write : σ → List UInt8 → Run (Bool × σ))
    (back : σ → List UInt8 → Run σ) (f : σ) (bytes random : List UInt8) : Run (Bool × σ) :=
  let part := bytes.length % kBlockSize
  let good := bytes.length - part
  match (if good = 0 then .ok (true, f) else write f (bytes.take good)) with
  | .error stop => .error stop
  | .ok (false, f) => .ok (false, f)
  | .ok (true, f) =>
    if part = 0 then .ok (true, f)
    else
      match write f (bytes.drop good ++ random.drop part) with
      | .error stop => .error stop
      | .ok (true, f) => .ok (true, f)
      | .ok (false, f) =>
        if good = 0 then .ok (false, f)
        else
          match back f (bytes.take good) with
          | .error stop => .error stop
          | .ok f => .ok (false, f)

structure ByteFile where
  data : List UInt8 := []
  offset : Nat := 0
  deriving DecidableEq, Repr

namespace ByteFile

/-- An incomplete block at the end is not counted. -/
def size (f : ByteFile) : Nat := f.data.length / kBlockSize * kBlockSize

def read (f : ByteFile) (n : Nat) : Run (List UInt8 × ByteFile) :=
  if n % kBlockSize ≠ 0 then .error .assertion
  else
    let count := min n (f.data.length - f.offset) / kBlockSize * kBlockSize
    if count ≠ 0 ∧ f.offset % kBlockSize ≠ 0 then .error .assertion
    else .ok ((f.data.drop f.offset).take count, { f with offset := f.offset + count })

def write (f : ByteFile) (bytes : List UInt8) : Run ByteFile :=
  if bytes.length % kBlockSize ≠ 0 ∨ f.offset % kBlockSize ≠ 0 then .error .assertion
  else
    .ok { data := f.data.take f.offset ++ bytes ++ f.data.drop (f.offset + bytes.length),
          offset := f.offset + bytes.length }

def seek (f : ByteFile) (offset : Int) : Bool × ByteFile :=
  if offset < 0 ∨ (f.size : Int) < offset then (false, f)
  else (true, { f with offset := offset.toNat })

theorem size_le (f : ByteFile) : f.size ≤ f.data.length := Nat.div_mul_le_self _ _

theorem size_mod (f : ByteFile) : f.size % kBlockSize = 0 := Nat.mul_mod_left _ _

/-- Reading inside the whole blocks of a file returns all the bytes asked for. -/
theorem read_eq {f : ByteFile} {n : Nat} (hn : n % kBlockSize = 0)
    (ho : f.offset % kBlockSize = 0) (hle : f.offset + n ≤ f.data.length) :
    f.read n = .ok ((f.data.drop f.offset).take n, { f with offset := f.offset + n }) := by
  have hcount : min n (f.data.length - f.offset) / kBlockSize * kBlockSize = n := by
    rw [Nat.min_eq_left (by omega)]
    simp only [kBlockSize] at hn ⊢
    omega
  simp [read, hn, hcount, ho]

theorem seek_eq {f : ByteFile} {offset : Nat} (h : offset ≤ f.size) :
    f.seek offset = (true, { f with offset := offset }) := by
  simp [seek, h]

theorem write_eq {f : ByteFile} {bytes : List UInt8} (hb : bytes.length % kBlockSize = 0)
    (ho : f.offset % kBlockSize = 0) :
    f.write bytes = .ok
      { data := f.data.take f.offset ++ bytes ++ f.data.drop (f.offset + bytes.length),
        offset := f.offset + bytes.length } := by
  simp [write, hb, ho]

end ByteFile

end TelegramClient
