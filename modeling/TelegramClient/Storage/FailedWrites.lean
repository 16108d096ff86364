import Mathlib
import TelegramClient.Storage.EncryptedFile

/-! Writes to a file whose device takes a part of what it is given, or nothing. The writes of the
file with a device that never fails are the ones of which everything is taken. -/

namespace TelegramClient

/-- The cipher undoes itself at the same offset. -/
theorem CtrState.process_process {ssl : OpenSsl} {s : CtrState} {data out : List UInt8} {offset : Nat}
    (h : s.process ssl data offset = .ok out) :
    s.process ssl out offset = .ok data ∧ out.length = data.length := by
  rw [process] at h
  split at h
  · cases h
  · next hblocks =>
    cases h
    have hxor : ∀ {data : List UInt8}, data.length % kBlockSize = 0 → ∀ iv,
        ctr128Encrypt (ssl.aesEncrypt s.key) data iv =
          CounterMode.xorFrom (ssl.aesEncrypt s.key) iv 0 data := by
      intro data hdata iv
      have hlength : data.length = CounterMode.blockSize * (data.length / kBlockSize) := by
        simp only [CounterMode.blockSize, kBlockSize] at hdata ⊢
        omega
      have heq := @CounterMode.encryptBlocks_eq _ iv (ssl.length_aesEncrypt s.key)
        (data.length / kBlockSize) 0 _ hlength
      rwa [CounterMode.add_zero, Nat.mul_zero] at heq
    simp only [ne_eq, not_or, not_not] at hblocks
    rw [hxor hblocks.1, process, if_neg (by simp [hblocks]), hxor (by simp [hblocks.1]),
      CounterMode.xorFrom_xorFrom]
    exact ⟨rfl, CounterMode.length_xorFrom _ _⟩

namespace File

/-- `taken` is how much the device takes, nothing when it reports an error. The number of bytes
that are written is returned, or −1. -/
def writePlainTaking (f : File) (bytes : List UInt8) (taken : Option Nat) : Int × File :=
  match f.mode with
  | some .readAppend | some .write =>
    match taken with
    | some n =>
      let part := bytes.take n
      (part.length, { f with
        disk := some (f.bytes.take f.pos ++ part ++ f.bytes.drop (f.pos + part.length))
        pos := f.pos + part.length })
    | none => (-1, f)
  | _ => (-1, f)

/-- `decryptBack` with the bytes that it leaves in the buffer. -/
def decryptBackBuffer (ssl : OpenSsl) (f : File) (bytes : List UInt8) :
    Run (List UInt8 × File) :=
  if f.encryptionOffset < bytes.length then .error .assertion
  else
    match { f with encryptionOffset := f.encryptionOffset - bytes.length }.decrypt ssl bytes with
    | .error stop => .error stop
    | .ok (plain, f) =>
      .ok (plain, { f with encryptionOffset := f.encryptionOffset - bytes.length })

/-- The buffer of the caller is returned as it is left. -/
def writeTaking (ssl : OpenSsl) (f : File) (bytes : List UInt8) (taken : Option Nat) :
    Run (Bool × List UInt8 × File) :=
  if bytes.length % kBlockSize ≠ 0 then .error .assertion
  else if f.mode = none then .ok (false, bytes, f)
  else
    match f.encrypt ssl bytes with
    | .error stop => .error stop
    | .ok (cipher, f) =>
      let (count, f) := f.writePlainTaking cipher taken
      if count = cipher.length then
        .ok (true, cipher, { f with dataSize := max f.dataSize f.offset })
      else
        match f.decryptBackBuffer ssl cipher with
        | .error stop => .error stop
        | .ok (plain, f) => .ok (false, plain, { f with pos := f.pos - count.toNat })

def writeWithPaddingTaking (ssl : OpenSsl) (f : File) (bytes random : List UInt8)
    (first second : Option Nat) : Run (Bool × List UInt8 × File) :=
  let part := bytes.length % kBlockSize
  let good := bytes.length - part
  match (if good = 0 then .ok (true, [], f) else f.writeTaking ssl (bytes.take good) first) with
  | .error stop => .error stop
  | .ok (false, buffer, f) => .ok (false, buffer ++ bytes.drop good, f)
  | .ok (true, buffer, f) =>
    if part = 0 then .ok (true, buffer ++ bytes.drop good, f)
    else
      match f.writeTaking ssl (bytes.drop good ++ random.drop part) second with
      | .error stop => .error stop
      | .ok (true, _, f) => .ok (true, buffer ++ bytes.drop good, f)
      | .ok (false, _, f) =>
        if good = 0 then .ok (false, buffer ++ bytes.drop good, f)
        else
          match f.decryptBackBuffer ssl buffer with
          | .error stop => .error stop
          | .ok (plain, f) => .ok (false, plain ++ bytes.drop good, { f with pos := f.pos - good })

/-- After some bytes of the keystream. -/
def past (f : File) (n : Nat) : File := { f with encryptionOffset := f.encryptionOffset + n }

theorem encrypt_ok {ssl : OpenSsl} {f g : File} {bytes cipher : List UInt8}
    (h : f.encrypt ssl bytes = .ok (cipher, g)) : ∃ state, f.state = some state ∧
      state.process ssl bytes f.encryptionOffset = .ok cipher ∧ g = f.past bytes.length := by
  rw [encrypt] at h
  split at h
  · cases h
  · next state hstate =>
    split at h
    · cases h
    · next hprocess =>
      cases h
      exact ⟨state, hstate, hprocess, rfl⟩

/-- Bytes that have been encrypted at the end of the keystream are plain again, and the place in
the keystream is the one before. -/
theorem decryptBackBuffer_eq {ssl : OpenSsl} {f : File} {state : CtrState}
    {bytes cipher : List UInt8} {offset : Nat} (hstate : f.state = some state)
    (hprocess : state.process ssl bytes offset = .ok cipher)
    (hoffset : f.encryptionOffset = offset + bytes.length) :
    f.decryptBackBuffer ssl cipher = .ok (bytes, { f with encryptionOffset := offset }) := by
  obtain ⟨hback, hlength⟩ := CtrState.process_process hprocess
  rw [decryptBackBuffer, if_neg (by omega), hoffset, hlength, Nat.add_sub_cancel, decrypt]
  simp only [hstate, CtrState.decrypt, hback, hlength, Nat.add_sub_cancel]

/-- The device takes all the bytes. -/
def TakesWhole (f : File) (bytes : List UInt8) (taken : Option Nat) : Prop :=
  (f.mode = some .readAppend ∨ f.mode = some .write) ∧ ∃ n ∈ taken, bytes.length ≤ n

/-- Only the disk changes, and the place in it by as much as is taken. -/
theorem writePlainTaking_spec (f : File) (bytes : List UInt8) (taken : Option Nat) :
    ∃ disk, (f.writePlainTaking bytes taken).2 = { f with
        disk, pos := f.pos + (f.writePlainTaking bytes taken).1.toNat } ∧
      ((f.writePlainTaking bytes taken).1 = bytes.length ↔ f.TakesWhole bytes taken) := by
  have hne : (-1 : Int) ≠ bytes.length := by omega
  obtain ⟨disk, mode, pos, encryptionOffset, dataSize, state⟩ := f
  cases mode with
  | none => exact ⟨disk, by simp [writePlainTaking, TakesWhole, hne]⟩
  | some mode =>
    cases mode with
    | read => exact ⟨disk, by simp [writePlainTaking, TakesWhole, hne]⟩
    | readAppend | write =>
      cases taken with
      | none => exact ⟨disk, by simp [writePlainTaking, TakesWhole, hne]⟩
      | some n => exact ⟨_, rfl, by simp [writePlainTaking, TakesWhole]⟩

variable {ssl : OpenSsl} {f g : File} {bytes random buffer : List UInt8}
  {taken first second : Option Nat}

theorem takesWhole_past {cipher : List UInt8} (n : Nat) (hlength : cipher.length = bytes.length) :
    (f.past n).TakesWhole cipher taken ↔ f.TakesWhole bytes taken := by
  rw [TakesWhole, TakesWhole, hlength]
  rfl

theorem writeTaking_true (h : f.writeTaking ssl bytes taken = .ok (true, buffer, g)) :
    ∃ disk state pos, f.state = some state ∧ f.TakesWhole bytes taken ∧
      state.process ssl bytes f.encryptionOffset = .ok buffer ∧
      g = { f.past bytes.length with
        disk, pos, dataSize := max f.dataSize (f.past bytes.length).offset } := by
  rw [writeTaking] at h
  split at h
  · cases h
  split at h
  · cases h
  split at h
  · cases h
  · next cipher f₁ hencrypt =>
    obtain ⟨state, hstate, hprocess, rfl⟩ := encrypt_ok hencrypt
    obtain ⟨-, hlength⟩ := CtrState.process_process hprocess
    obtain ⟨disk, hplain, hwhole⟩ := writePlainTaking_spec (f.past bytes.length) cipher taken
    simp only [hplain] at h
    split at h
    · next hcount =>
      cases h
      exact ⟨disk, state, _, hstate, (takesWhole_past _ hlength).mp (hwhole.mp hcount), hprocess, rfl⟩
    · split at h <;> cases h

/-- A write that fails leaves the buffer, the sizes and the place as they were. -/
theorem writeTaking_false (h : f.writeTaking ssl bytes taken = .ok (false, buffer, g)) :
    buffer = bytes ∧ (∃ disk, g = { f with disk }) ∧ ¬f.TakesWhole bytes taken := by
  rw [writeTaking] at h
  split at h
  · cases h
  split at h
  · next hmode =>
    cases h
    exact ⟨rfl, ⟨f.disk, rfl⟩, by simp [TakesWhole, hmode]⟩
  split at h
  · cases h
  · next cipher f₁ hencrypt =>
    obtain ⟨state, hstate, hprocess, rfl⟩ := encrypt_ok hencrypt
    obtain ⟨-, hlength⟩ := CtrState.process_process hprocess
    obtain ⟨disk, hplain, hwhole⟩ := writePlainTaking_spec (f.past bytes.length) cipher taken
    simp only [hplain] at h
    split at h
    · cases h
    · next hcount =>
      rw [@decryptBackBuffer_eq ssl _ state bytes cipher f.encryptionOffset ?_ hprocess ?_] at h
      · cases h
        refine ⟨rfl, ⟨disk, ?_⟩,
          fun htakes => hcount (hwhole.mpr ((takesWhole_past _ hlength).mpr htakes))⟩
        simp [past]
      · exact hstate
      · rfl

/-- What is restored: `size()`, `offset()` and the buffer of the caller. -/
structure Restored (f g : File) (bytes buffer : List UInt8) : Prop where
  size : g.dataSize = f.dataSize
  offset : g.offset = f.offset
  buffer : buffer = bytes

/-- The whole blocks are taken, and they make the file longer. -/
def Grows (f : File) (bytes : List UInt8) (first : Option Nat) : Prop :=
  let good := bytes.length - bytes.length % kBlockSize
  good ≠ 0 ∧ f.TakesWhole (bytes.take good) first ∧ f.dataSize < (f.past good).offset

theorem writeWithPaddingTaking_false
    (h : f.writeWithPaddingTaking ssl bytes random first second = .ok (false, buffer, g)) :
    f.Restored g bytes buffer ↔ ¬f.Grows bytes first := by
  have hgood : (bytes.take (bytes.length - bytes.length % kBlockSize)).length =
      bytes.length - bytes.length % kBlockSize := List.length_take_of_le (Nat.sub_le _ _)
  simp only [writeWithPaddingTaking] at h
  split at h
  · cases h
  · next first' f₁ hfirst =>
    split at hfirst
    · cases hfirst
    · cases h
      obtain ⟨hbuffer, ⟨disk, rfl⟩, hnot⟩ := writeTaking_false hfirst
      rw [hbuffer, List.take_append_drop]
      exact ⟨fun _ hgrows => hnot hgrows.2.1, fun _ => ⟨rfl, rfl, rfl⟩⟩
  · next first' f₁ hfirst =>
    split at h
    · cases h
    split at h
    · cases h
    · cases h
    · next second' f₂ hsecond =>
      obtain ⟨-, ⟨disk, rfl⟩, -⟩ := writeTaking_false hsecond
      split at hfirst
      · next hzero =>
        rw [if_pos hzero] at h
        cases hfirst
        cases h
        rw [hzero, List.nil_append, List.drop_zero]
        exact ⟨fun _ hgrows => hgrows.1 hzero, fun _ => ⟨rfl, rfl, rfl⟩⟩
      · next hne =>
        obtain ⟨disk', state, pos, hstate, htakes, hprocess, rfl⟩ := writeTaking_true hfirst
        rw [if_neg hne] at h
        rw [@decryptBackBuffer_eq ssl _ state _ first' f.encryptionOffset ?_ hprocess ?_] at h
        · cases h
          rw [List.take_append_drop]
          constructor
          · rintro ⟨hsize, -, -⟩ ⟨-, -, hlt⟩
            simp only [hgood] at hsize
            omega
          · intro hgrows
            refine ⟨?_, rfl, rfl⟩
            have hle : (f.past (bytes.length - bytes.length % kBlockSize)).offset ≤ f.dataSize := by
              by_contra hlt
              exact hgrows ⟨hne, htakes, by omega⟩
            simp only [hgood]
            omega
        · exact hstate
        · rfl

theorem failedWrite_restores_iff (ssl : OpenSsl) (f g : File) (bytes random buffer : List UInt8)
    (first second : Option Nat) :
    (f.writeTaking ssl bytes first = .ok (false, buffer, g) → f.Restored g bytes buffer) ∧
    (f.writeWithPaddingTaking ssl bytes random first second = .ok (false, buffer, g) →
      (f.Restored g bytes buffer ↔ ¬f.Grows bytes first)) := by
  refine ⟨fun h => ?_, writeWithPaddingTaking_false⟩
  obtain ⟨hbuffer, ⟨disk, rfl⟩, -⟩ := writeTaking_false h
  exact ⟨rfl, rfl, hbuffer⟩

/-- A cipher that changes nothing. -/
def idleSsl : OpenSsl where
  aesEncrypt _ _ := List.replicate 16 0
  sha256 _ := List.replicate 32 0
  length_aesEncrypt _ _ := rfl
  length_sha256 _ := rfl

/-- A file that has been created and has no content yet. -/
def fresh : File where
  disk := some (List.replicate 116 0)
  mode := some .write
  pos := kSkipBytes + sizeofFileHeader
  encryptionOffset := sizeofFileHeader - kSaltSize
  state := some ⟨List.replicate 32 0, List.replicate 16 0, rfl, rfl⟩

/-- The disk is full after the whole block: the size stays that of the block. -/
theorem failedWrite_keeps_the_size_of_the_block : ∃ buffer g,
    fresh.writeWithPaddingTaking idleSsl (List.replicate 17 7) (List.replicate 16 0)
      (some 16) none = .ok (false, buffer, g) ∧
    fresh.dataSize = 0 ∧ g.dataSize = 16 ∧ ¬fresh.Restored g (List.replicate 17 7) buffer := by
  refine ⟨_, _, rfl, rfl, rfl, fun h => ?_⟩
  exact absurd h.size (by decide)

theorem failedWrite_restores_iff_both :
    (∃ buffer g, fresh.writeTaking idleSsl (List.replicate 16 7) (some 5) = .ok (false, buffer, g) ∧
      fresh.Restored g (List.replicate 16 7) buffer) ∧
    (∃ buffer g, fresh.writeWithPaddingTaking idleSsl (List.replicate 17 7) (List.replicate 16 0)
        (some 15) none = .ok (false, buffer, g) ∧
      (fresh.Restored g (List.replicate 17 7) buffer ↔
        ¬fresh.Grows (List.replicate 17 7) (some 15))) :=
  ⟨⟨_, _, rfl, (failedWrite_restores_iff idleSsl fresh _ (List.replicate 16 7) [] _
      (some 5) none).1 rfl⟩,
    ⟨_, _, rfl, (failedWrite_restores_iff idleSsl fresh _ (List.replicate 17 7)
      (List.replicate 16 0) _ (some 15) none).2 rfl⟩⟩

/-! ### The device that takes everything -/

/-- What is taken of some bytes when no disk fails. -/
def takenWhole (f : File) (bytes : List UInt8) : Option Nat :=
  if maxFileSize < f.pos + bytes.length then none else some bytes.length

theorem writePlain_eq (f : File) (bytes : List UInt8) :
    f.writePlain bytes =
      (decide ((f.writePlainTaking bytes (f.takenWhole bytes)).1 = bytes.length),
        (f.writePlainTaking bytes (f.takenWhole bytes)).2) := by
  have hne : (-1 : Int) ≠ bytes.length := by omega
  cases hm : f.mode with
  | none => simp [writePlain, writePlainTaking, hm, hne]
  | some mode =>
    cases mode <;> by_cases h : maxFileSize < f.pos + bytes.length <;>
      simp [writePlain, writePlainTaking, takenWhole, hm, h, hne]

theorem writePlainTaking_all_or_none (f : File) (bytes : List UInt8)
    (h : (f.writePlainTaking bytes (f.takenWhole bytes)).1 ≠ bytes.length) :
    (f.writePlainTaking bytes (f.takenWhole bytes)).1 = -1 := by
  cases hm : f.mode with
  | none => simp [writePlainTaking, hm]
  | some mode =>
    cases mode <;> by_cases hmax : maxFileSize < f.pos + bytes.length <;>
      simp_all [writePlainTaking, takenWhole]

theorem decryptBack_eq (ssl : OpenSsl) (f : File) (bytes : List UInt8) :
    f.decryptBack ssl bytes = Except.map Prod.snd (f.decryptBackBuffer ssl bytes) := by
  rw [decryptBack, decryptBackBuffer]
  split
  · rfl
  · cases { f with encryptionOffset := f.encryptionOffset - bytes.length }.decrypt ssl bytes with
    | error stop => rfl
    | ok r => rfl

/-- The writes of a file whose device never fails are these. -/
theorem write_eq (ssl : OpenSsl) (f : File) (bytes : List UInt8) :
    f.write ssl bytes = Except.map (fun r => (r.1, r.2.2))
      (f.writeTaking ssl bytes (f.takenWhole bytes)) := by
  rw [write, writeTaking]
  split
  · rfl
  split
  · rfl
  cases hencrypt : f.encrypt ssl bytes with
  | error stop => rfl
  | ok r =>
    obtain ⟨cipher, f₁⟩ := r
    obtain ⟨state, hstate, hprocess, rfl⟩ := encrypt_ok hencrypt
    obtain ⟨-, hlength⟩ := CtrState.process_process hprocess
    have htaken : f.takenWhole bytes = (f.past bytes.length).takenWhole cipher := by
      rw [takenWhole, takenWhole, hlength]
      rfl
    simp only [writePlain_eq, htaken]
    by_cases hcount : ((f.past bytes.length).writePlainTaking cipher
        ((f.past bytes.length).takenWhole cipher)).1 = cipher.length
    · simp [hcount, Except.map]
    · have hnone := writePlainTaking_all_or_none _ _ hcount
      have hne : (-1 : Int) ≠ cipher.length := by omega
      simp only [hnone, hne, decide_false, if_false, decryptBack_eq]
      cases decryptBackBuffer ssl ((f.past bytes.length).writePlainTaking cipher
          ((f.past bytes.length).takenWhole cipher)).2 cipher with
      | error stop => rfl
      | ok r => rfl

/-- What the file is like afterwards depends on how many bytes are decrypted back. -/
theorem decryptBack_congr {ssl : OpenSsl} {f : File} {a b : List UInt8} (h : a.length = b.length) :
    f.decryptBack ssl a = f.decryptBack ssl b := by
  rw [decryptBack, decryptBack, decrypt, decrypt, h]
  split
  · rfl
  · cases f.state with
    | none => rfl
    | some state =>
      simp only [CtrState.decrypt, CtrState.process, h]
      by_cases hblocks : b.length % kBlockSize ≠ 0 ∨
          (f.encryptionOffset - b.length) % kBlockSize ≠ 0
      · rw [if_pos hblocks, if_pos hblocks]
      · rw [if_neg hblocks, if_neg hblocks]

theorem writeWithPadding_eq (ssl : OpenSsl) (f : File) (bytes random : List UInt8) :
    ∃ first second, f.writeWithPadding ssl bytes random = Except.map (fun r => (r.1, r.2.2))
      (f.writeWithPaddingTaking ssl bytes random first second) := by
  refine ⟨f.takenWhole (bytes.take (bytes.length - bytes.length % kBlockSize)), ?_⟩
  have hfirst : (if bytes.length - bytes.length % kBlockSize = 0 then Except.ok (true, f)
        else f.write ssl (bytes.take (bytes.length - bytes.length % kBlockSize))) =
      Except.map (fun r => (r.1, r.2.2))
        (if bytes.length - bytes.length % kBlockSize = 0 then Except.ok (true, ([] : List UInt8), f)
        else f.writeTaking ssl (bytes.take (bytes.length - bytes.length % kBlockSize))
          (f.takenWhole (bytes.take (bytes.length - bytes.length % kBlockSize)))) := by
    split
    · rfl
    · exact write_eq ssl f _
  simp only [writeWithPadding, writePadded, writeWithPaddingTaking, hfirst]
  cases hresult : (if bytes.length - bytes.length % kBlockSize = 0 then
      Except.ok (true, ([] : List UInt8), f)
    else f.writeTaking ssl (bytes.take (bytes.length - bytes.length % kBlockSize))
      (f.takenWhole (bytes.take (bytes.length - bytes.length % kBlockSize)))) with
  | error stop => exact ⟨none, rfl⟩
  | ok r =>
    obtain ⟨written, buffer, f₁⟩ := r
    cases written with
    | false => exact ⟨none, rfl⟩
    | true =>
      refine ⟨f₁.takenWhole (bytes.drop (bytes.length - bytes.length % kBlockSize) ++
        random.drop (bytes.length % kBlockSize)), ?_⟩
      simp only [Except.map]
      split
      · rfl
      rw [write_eq]
      cases f₁.writeTaking ssl (bytes.drop (bytes.length - bytes.length % kBlockSize) ++
          random.drop (bytes.length % kBlockSize))
        (f₁.takenWhole (bytes.drop (bytes.length - bytes.length % kBlockSize) ++
          random.drop (bytes.length % kBlockSize))) with
      | error stop => rfl
      | ok r =>
        obtain ⟨padded, _, f₂⟩ := r
        cases padded with
        | true => rfl
        | false =>
          simp only [Except.map]
          split
          · rfl
          · next hgood =>
            rw [if_neg hgood] at hresult
            obtain ⟨_, _, _, -, -, hprocess, -⟩ := writeTaking_true hresult
            obtain ⟨-, hlength⟩ := CtrState.process_process hprocess
            rw [@decryptBack_congr ssl f₂ _ buffer hlength.symm, decryptBack_eq]
            have htake : (bytes.take (bytes.length - bytes.length % kBlockSize)).length =
                bytes.length - bytes.length % kBlockSize :=
              List.length_take_of_le (Nat.sub_le _ _)
            simp only [htake]
            cases f₂.decryptBackBuffer ssl buffer with
            | error stop => rfl
            | ok r => rfl

end File

end TelegramClient
