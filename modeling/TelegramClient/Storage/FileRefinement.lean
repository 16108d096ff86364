import Mathlib
import TelegramClient.Lib.Simulation
import TelegramClient.Storage.EncryptedFile

/-! An encrypted file behaves like an array of bytes: no call can tell the cipher,
the header or the way the bytes were cut into blocks. -/

namespace TelegramClient

/-- A file without header and cipher: the bytes stored under its name, how it is
open and where it stands. -/
structure PlainFile where
  stored : Option (List UInt8) := none
  mode : Option Mode := none
  offset : Nat := 0

namespace PlainFile

def bytes (p : PlainFile) : List UInt8 := p.stored.getD []

def toByteFile (p : PlainFile) : ByteFile := { data := p.bytes, offset := p.offset }

def close (p : PlainFile) : PlainFile := { stored := p.stored }

def «open» (p : PlainFile) : Mode → OpenResult × PlainFile
  | .read =>
    if p.stored = none then (.failed, p.close)
    else (.success, { stored := p.stored, mode := some .read })
  | .readAppend => (.success, { stored := some p.bytes, mode := some .readAppend })
  | .write => (.success, { stored := some [], mode := some .write })

def read (p : PlainFile) (n : Nat) : Run (List UInt8 × PlainFile) :=
  if n % kBlockSize ≠ 0 then .error .assertion
  else
    match p.mode with
    | some .read | some .readAppend =>
      match p.toByteFile.read n with
      | .error stop => .error stop
      | .ok (bytes, file) => .ok (bytes, { p with offset := file.offset })
    | _ => .error .refused

/-- The bytes at the offset are replaced, the file grows when it is too short. -/
def write (p : PlainFile) (bytes : List UInt8) : Run (Bool × PlainFile) :=
  if bytes.length % kBlockSize ≠ 0 then .error .assertion
  else
    match p.mode with
    | none => .ok (false, p)
    | some mode =>
      match p.toByteFile.write bytes with
      | .error stop => .error stop
      | .ok file =>
        if mode = .read ∨ maxFileSize < kSkipBytes + sizeofFileHeader + file.offset then
          .ok (false, p)
        else .ok (true, { p with stored := some file.data, offset := file.offset })

def seek (p : PlainFile) (offset : Int) : Bool × PlainFile :=
  if p.mode = none then (false, p)
  else ((p.toByteFile.seek offset).1, { p with offset := (p.toByteFile.seek offset).2.offset })

def call (p : PlainFile) : Call → Run (Answer × PlainFile)
  | .open mode _ => .ok (.opened (p.open mode).1, (p.open mode).2)
  | .close => .ok (.closed, p.close)
  | .read n => Except.map (Prod.map .bytes id) (p.read n)
  | .readWithPadding n => Except.map (Prod.map .bytes id) (readPadded read p n)
  | .write bytes => Except.map (Prod.map .done id) (p.write bytes)
  | .writeWithPadding bytes random =>
    Except.map (Prod.map .done id)
      (writePadded write (fun p bytes => .ok { p with offset := p.offset - bytes.length })
        p bytes random.toList)
  | .seek offset => .ok (.done (p.seek offset).1, (p.seek offset).2)

end PlainFile

/-! ### The image of the bytes on the disk -/

def sealedHeader (ssl : OpenSsl) (key : EncryptionKey) (salt : List UInt8) : List UInt8 :=
  leBytes 16 0 ++ File.checksum ssl key (File.checkedHeader salt)

/-- What an encrypted file is on the disk. -/
def image (ssl : OpenSsl) (key : EncryptionKey) (salt data : List UInt8) : List UInt8 :=
  magic ++ salt ++
    (key.prepareCtrState ssl salt).mask ssl 0 (sealedHeader ssl key salt ++ data)

variable {ssl : OpenSsl} {key : EncryptionKey} {s : CtrState} {salt data : List UInt8}

namespace CtrState

@[simp] theorem length_mask (offset : Nat) (bytes : List UInt8) :
    (s.mask ssl offset bytes).length = bytes.length := CounterMode.length_xorFrom _ _

theorem mask_append (offset : Nat) (as bs : List UInt8) :
    s.mask ssl offset (as ++ bs) = s.mask ssl offset as ++ s.mask ssl (offset + as.length) bs :=
  CounterMode.xorFrom_append _ _ _

theorem mask_mask (offset : Nat) (bytes : List UInt8) :
    s.mask ssl offset (s.mask ssl offset bytes) = bytes := CounterMode.xorFrom_xorFrom _ _

theorem take_mask (offset n : Nat) (bytes : List UInt8) :
    (s.mask ssl offset bytes).take n = s.mask ssl offset (bytes.take n) :=
  CounterMode.take_xorFrom _ _ _

theorem drop_mask (offset n : Nat) (bytes : List UInt8) :
    (s.mask ssl offset bytes).drop n = s.mask ssl (offset + n) (bytes.drop n) :=
  CounterMode.drop_xorFrom _ _ _

end CtrState

theorem length_sealedHeader (ssl : OpenSsl) (key : EncryptionKey) (salt : List UInt8) :
    (sealedHeader ssl key salt).length = 48 := by
  rw [sealedHeader, List.length_append, length_leBytes, File.checksum, ssl.length_sha256]

theorem length_magic_salt (h : salt.length = kSaltSize) : (magic ++ salt).length = 68 := by
  rw [List.length_append, h]
  rfl

theorem length_image (h : salt.length = kSaltSize) :
    (image ssl key salt data).length = 116 + data.length := by
  rw [image, List.length_append, length_magic_salt h, CtrState.length_mask, List.length_append,
    length_sealedHeader]
  omega

theorem drop_image (h : salt.length = kSaltSize) (offset : Nat) :
    (image ssl key salt data).drop (116 + offset) =
      (key.prepareCtrState ssl salt).mask ssl (48 + offset) (data.drop offset) := by
  have hsplit : 116 + offset = (magic ++ salt).length + (48 + offset) := by
    rw [length_magic_salt h]
    omega
  have hdata : (sealedHeader ssl key salt ++ data).drop (48 + offset) = data.drop offset := by
    rw [← List.drop_drop, List.drop_left' (length_sealedHeader ssl key salt)]
  rw [image, hsplit, List.drop_length_add_append, CtrState.drop_mask, Nat.zero_add, hdata]

theorem take_image (h : salt.length = kSaltSize) (offset : Nat) :
    (image ssl key salt data).take (116 + offset) = image ssl key salt (data.take offset) := by
  have hsplit : 116 + offset = (magic ++ salt).length + (48 + offset) := by
    rw [length_magic_salt h]
    omega
  have hdata : (sealedHeader ssl key salt ++ data).take (48 + offset) =
      sealedHeader ssl key salt ++ data.take offset := by
    rw [← length_sealedHeader ssl key salt, List.take_length_add_append]
  rw [image, hsplit, List.take_length_add_append, CtrState.take_mask, hdata, image]

theorem image_append (bytes : List UInt8) :
    image ssl key salt (data ++ bytes) = image ssl key salt data ++
      (key.prepareCtrState ssl salt).mask ssl (48 + data.length) bytes := by
  rw [image, image, ← List.append_assoc (sealedHeader ssl key salt), CtrState.mask_append,
    List.length_append, length_sealedHeader, Nat.zero_add, ← List.append_assoc]

/-- Masked bytes written into the image are the bytes written into the data. -/
theorem image_write (ssl : OpenSsl) (key : EncryptionKey) (h : salt.length = kSaltSize)
    {offset : Nat} (ho : offset ≤ data.length) (bytes : List UInt8) :
    (image ssl key salt data).take (116 + offset) ++
        (key.prepareCtrState ssl salt).mask ssl (48 + offset) bytes ++
        (image ssl key salt data).drop (116 + offset + bytes.length) =
      image ssl key salt
        (data.take offset ++ bytes ++ data.drop (offset + bytes.length)) := by
  have hlen : (data.take offset).length = offset := by rw [List.length_take, Nat.min_eq_left ho]
  rw [take_image h, Nat.add_assoc, drop_image h, image_append, image_append, List.length_append,
    hlen]

/-- The encrypted file that stands for `data`, open at an offset. -/
def openedFile (ssl : OpenSsl) (key : EncryptionKey) (mode : Mode) (salt data : List UInt8)
    (offset : Nat) : File where
  disk := some (image ssl key salt data)
  mode := some mode
  pos := 116 + offset
  encryptionOffset := 48 + offset
  dataSize := data.length
  state := some (key.prepareCtrState ssl salt)

/-- The pairs of an encrypted file and the plain one it stands for. -/
inductive Rel (ssl : OpenSsl) (key : EncryptionKey) : File → PlainFile → Prop
  | missing : Rel ssl key {} {}
  | closed {salt data : List UInt8} (hsalt : salt.length = kSaltSize)
      (hmod : data.length % kBlockSize = 0) (hmax : 116 + data.length ≤ maxFileSize) :
      Rel ssl key { disk := some (image ssl key salt data) } { stored := some data }
  | opened (mode : Mode) {salt data : List UInt8} {offset : Nat} (hsalt : salt.length = kSaltSize)
      (hmod : data.length % kBlockSize = 0) (hmax : 116 + data.length ≤ maxFileSize)
      (ho : offset ≤ data.length) :
      Rel ssl key (openedFile ssl key mode salt data offset)
        { stored := some data, mode := some mode, offset := offset }

open Simulation

variable {f : File} {p : PlainFile}

theorem Rel.close (h : Rel ssl key f p) : Rel ssl key f.close p.close := by
  cases h with
  | missing => exact .missing
  | closed hsalt hmod hmax => exact .closed hsalt hmod hmax
  | opened mode hsalt hmod hmax ho => exact .closed hsalt hmod hmax

theorem Rel.seek (h : Rel ssl key f p) (offset : Int) :
    (f.seek offset).1 = (p.seek offset).1 ∧ Rel ssl key (f.seek offset).2 (p.seek offset).2 := by
  cases h with
  | missing => simpa [File.seek, PlainFile.seek] using Rel.missing
  | closed hsalt hmod hmax =>
    simpa [File.seek, PlainFile.seek] using Rel.closed hsalt hmod hmax
  | @opened mode salt data at_ hsalt hmod hmax ho =>
    have hsize : data.length / kBlockSize * kBlockSize = data.length := by
      simp only [kBlockSize] at hmod ⊢
      omega
    by_cases hout : offset < 0 ∨ (data.length : Int) < offset
    · have hf : offset < 0 ∨ (data.length : Int) < offset ∨ (some mode : Option Mode) = none := by
        rcases hout with hlt | hlt
        · exact .inl hlt
        · exact .inr (.inl hlt)
      have hseek : (openedFile ssl key mode salt data at_).seek offset =
          (false, openedFile ssl key mode salt data at_) := if_pos hf
      rw [hseek]
      simp only [PlainFile.seek, PlainFile.toByteFile, PlainFile.bytes, ByteFile.seek,
        ByteFile.size, Option.getD_some, hsize, if_pos hout]
      exact ⟨rfl, .opened mode hsalt hmod hmax ho⟩
    · have hf : ¬(offset < 0 ∨ (data.length : Int) < offset ∨ (some mode : Option Mode) = none) := by
        simpa using hout
      have hle : offset.toNat ≤ data.length := by omega
      have hpos : kSkipBytes + (sizeofFileHeader + offset.toNat) = 116 + offset.toNat := by
        simp only [kSkipBytes, sizeofFileHeader]
        omega
      have henc : sizeofFileHeader + offset.toNat - kSaltSize = 48 + offset.toNat := by
        simp only [sizeofFileHeader, kSaltSize]
        omega
      have hseek : (openedFile ssl key mode salt data at_).seek offset =
          (true, { openedFile ssl key mode salt data at_ with
            pos := kSkipBytes + (sizeofFileHeader + offset.toNat)
            encryptionOffset := sizeofFileHeader + offset.toNat - kSaltSize }) := if_neg hf
      rw [hseek, hpos, henc]
      simp only [PlainFile.seek, PlainFile.toByteFile, PlainFile.bytes, ByteFile.seek,
        ByteFile.size, Option.getD_some, hsize, if_neg hout]
      exact ⟨rfl, .opened mode hsalt hmod hmax hle⟩

theorem offset_openedFile (ssl : OpenSsl) (key : EncryptionKey) (mode : Mode)
    (salt data : List UInt8) (offset : Nat) :
    (openedFile ssl key mode salt data offset).offset = offset := by
  have hle : sizeofFileHeader ≤ kSaltSize + (48 + offset) := by
    simp only [sizeofFileHeader, kSaltSize]
    omega
  show (if sizeofFileHeader ≤ kSaltSize + (48 + offset) then
    kSaltSize + (48 + offset) - sizeofFileHeader else 0) = offset
  rw [if_pos hle]
  simp only [sizeofFileHeader, kSaltSize]
  omega

theorem read_openedFile {mode : Mode} (hmode : mode ≠ .write) (hsalt : salt.length = kSaltSize)
    (offset : Nat) {n : Nat} (hn : n % kBlockSize = 0) :
    (openedFile ssl key mode salt data offset).read ssl n =
      let count := min n (data.length - offset) / kBlockSize * kBlockSize
      if count = 0 then .ok ([], openedFile ssl key mode salt data offset)
      else
        { openedFile ssl key mode salt data offset with pos := 116 + (offset + count) }.decrypt ssl
          ((key.prepareCtrState ssl salt).mask ssl (48 + offset) ((data.drop offset).take count)) := by
  have hplain : (openedFile ssl key mode salt data offset).readPlain n =
      .ok ((key.prepareCtrState ssl salt).mask ssl (48 + offset) ((data.drop offset).take n),
        { openedFile ssl key mode salt data offset with
          pos := 116 + offset + min n (data.length - offset) }) := by
    cases mode with
    | write => exact absurd rfl hmode
    | read | readAppend =>
      simp [File.readPlain, openedFile, File.bytes, drop_image hsalt, CtrState.take_mask]
  generalize hk : min n (data.length - offset) = k at hplain
  have hlen : ((data.drop offset).take n).length = k := by
    rw [List.length_take, List.length_drop, hk]
  have hcount : k - k % kBlockSize = k / kBlockSize * kBlockSize := by
    simp only [kBlockSize]
    omega
  have hpos : 116 + offset + k - k % kBlockSize = 116 + (offset + k / kBlockSize * kBlockSize) := by
    simp only [kBlockSize]
    omega
  have hle : k / kBlockSize * kBlockSize ≤ n := by
    have := Nat.div_mul_le_self k kBlockSize
    omega
  rw [File.read, if_neg (by simpa using hn), hplain]
  simp only [CtrState.length_mask, hlen, hcount, hpos, CtrState.take_mask, List.take_take,
    Nat.min_eq_left hle]
  split
  · rename_i hzero
    rw [hzero]
    rfl
  · rfl

theorem Rel.read (h : Rel ssl key f p) (n : Nat) :
    Agree (Rel ssl key) (f.read ssl n) (p.read n) := by
  by_cases hn : n % kBlockSize ≠ 0
  · rw [File.read, PlainFile.read, if_pos hn, if_pos hn]
    exact .error _
  have hn' : n % kBlockSize = 0 := not_not.mp hn
  cases h with
  | missing =>
    rw [File.read, PlainFile.read, if_neg hn, if_neg hn]
    exact .error _
  | closed hsalt hmod hmax =>
    rw [File.read, PlainFile.read, if_neg hn, if_neg hn]
    exact .error _
  | @opened mode salt data offset hsalt hmod hmax ho =>
    by_cases hmode : mode = .write
    · subst hmode
      rw [File.read, PlainFile.read, if_neg hn, if_neg hn]
      exact .error _
    have hp : PlainFile.read { stored := some data, mode := some mode, offset := offset } n =
        match ByteFile.read { data := data, offset := offset } n with
        | .error stop => .error stop
        | .ok (bytes, file) =>
          .ok (bytes, { stored := some data, mode := some mode, offset := file.offset }) := by
      rw [PlainFile.read, if_neg hn]
      cases mode with
      | write => exact absurd rfl hmode
      | read | readAppend => rfl
    have hcm : min n (data.length - offset) / kBlockSize * kBlockSize % kBlockSize = 0 :=
      Nat.mul_mod_left _ _
    have hcl : min n (data.length - offset) / kBlockSize * kBlockSize ≤ data.length - offset :=
      (Nat.div_mul_le_self _ _).trans (Nat.min_le_right _ _)
    rw [hp, read_openedFile hmode hsalt offset hn', ByteFile.read, if_neg hn]
    generalize min n (data.length - offset) / kBlockSize * kBlockSize = count at hcm hcl ⊢
    by_cases hc : count = 0
    · subst hc
      simpa using Agree.ok [] (Rel.opened mode hsalt hmod hmax ho)
    simp only [if_neg hc]
    by_cases ho16 : offset % kBlockSize = 0
    · have hlen : ((data.drop offset).take count).length = count := by
        rw [List.length_take, List.length_drop, Nat.min_eq_left hcl]
      have hproc := CtrState.process_eq ssl (key.prepareCtrState ssl salt)
        ((key.prepareCtrState ssl salt).mask ssl (48 + offset) ((data.drop offset).take count))
        (48 + offset) (by rw [CtrState.length_mask, hlen, hcm])
        (by simp only [kBlockSize] at ho16 ⊢; omega) (by simp only [maxFileSize] at hmax; omega)
      rw [if_neg (by simp [ho16])]
      simp only [File.decrypt, openedFile, CtrState.decrypt, hproc, CtrState.mask_mask,
        CtrState.length_mask, hlen, Nat.add_assoc]
      exact .ok _ (.opened mode hsalt hmod hmax (by omega))
    · have hproc : (key.prepareCtrState ssl salt).process ssl
          ((key.prepareCtrState ssl salt).mask ssl (48 + offset) ((data.drop offset).take count))
          (48 + offset) = .error .assertion := by
        rw [CtrState.process, if_pos]
        apply Or.inr
        simp only [kBlockSize] at ho16 ⊢
        omega
      rw [if_pos ⟨hc, ho16⟩]
      simp only [File.decrypt, openedFile, CtrState.decrypt, hproc]
      exact .error _

theorem length_written (data bytes : List UInt8) {offset : Nat} (ho : offset ≤ data.length) :
    (data.take offset ++ bytes ++ data.drop (offset + bytes.length)).length =
      max data.length (offset + bytes.length) := by
  simp only [List.length_append, List.length_take, List.length_drop]
  omega

theorem writePlain_openedFile {mode : Mode} (hmode : mode ≠ .read) (hsalt : salt.length = kSaltSize)
    {offset : Nat} (ho : offset ≤ data.length) {bytes : List UInt8}
    (hmax : 116 + offset + bytes.length ≤ maxFileSize) :
    { openedFile ssl key mode salt data offset with
        encryptionOffset := 48 + offset + bytes.length }.writePlain
      ((key.prepareCtrState ssl salt).mask ssl (48 + offset) bytes) =
    (true, { openedFile ssl key mode salt
        (data.take offset ++ bytes ++ data.drop (offset + bytes.length)) (offset + bytes.length) with
      dataSize := data.length }) := by
  have hnot : ¬maxFileSize < 116 + offset + bytes.length := by omega
  have hbytes := image_write ssl key hsalt ho bytes
  cases mode with
  | read => exact absurd rfl hmode
  | write | readAppend =>
    simp only [File.writePlain, openedFile, File.bytes, Option.getD_some, CtrState.length_mask,
      if_neg hnot, hbytes]
    simp only [Nat.add_assoc]

theorem decryptBack_openedFile (ssl : OpenSsl) (key : EncryptionKey) (mode : Mode)
    (salt data : List UInt8) {offset : Nat} {bytes : List UInt8}
    (hb : bytes.length % kBlockSize = 0) (ho : offset % kBlockSize = 0)
    (hlt : 48 + offset < 2 ^ 63) (pos : Nat) :
    { openedFile ssl key mode salt data offset with
        pos := pos
        encryptionOffset := 48 + offset + bytes.length }.decryptBack ssl bytes =
      .ok { openedFile ssl key mode salt data offset with pos := pos } := by
  have hproc := CtrState.process_eq ssl (key.prepareCtrState ssl salt) bytes (48 + offset) hb
    (by simp only [kBlockSize] at ho ⊢; omega) hlt
  have hnot : ¬48 + offset + bytes.length < bytes.length := by omega
  simp only [File.decryptBack, if_neg hnot, File.decrypt, openedFile, CtrState.decrypt,
    Nat.add_sub_cancel, hproc]

theorem Rel.write (h : Rel ssl key f p) (bytes : List UInt8) :
    Agree (Rel ssl key) (f.write ssl bytes) (p.write bytes) := by
  by_cases hb : bytes.length % kBlockSize ≠ 0
  · rw [File.write, PlainFile.write, if_pos hb, if_pos hb]
    exact .error _
  have hb' : bytes.length % kBlockSize = 0 := not_not.mp hb
  rw [File.write, PlainFile.write, if_neg hb, if_neg hb]
  cases h with
  | missing => exact .ok false .missing
  | closed hsalt hmod hmax => exact .ok false (.closed hsalt hmod hmax)
  | @opened mode salt data offset hsalt hmod hmax ho =>
    by_cases ho16 : offset % kBlockSize = 0
    · have hlt : 48 + offset < 2 ^ 63 := by
        simp only [maxFileSize] at hmax
        omega
      have hproc := CtrState.process_eq ssl (key.prepareCtrState ssl salt) bytes (48 + offset) hb'
        (by simp only [kBlockSize] at ho16 ⊢; omega) hlt
      have henc : (openedFile ssl key mode salt data offset).encrypt ssl bytes =
          .ok ((key.prepareCtrState ssl salt).mask ssl (48 + offset) bytes,
            { openedFile ssl key mode salt data offset with
              encryptionOffset := 48 + offset + bytes.length }) := by
        simp only [File.encrypt, openedFile, CtrState.encrypt, hproc]
      have hplain := ByteFile.write_eq (f := { data := data, offset := offset }) hb' ho16
      have hopen : (openedFile ssl key mode salt data offset).mode ≠ none := by simp [openedFile]
      rw [if_neg hopen, henc]
      simp only [PlainFile.toByteFile, PlainFile.bytes, Option.getD_some, hplain]
      by_cases hfail : mode = .read ∨ maxFileSize < kSkipBytes + sizeofFileHeader + (offset + bytes.length)
      · have hwrite : { openedFile ssl key mode salt data offset with
              encryptionOffset := 48 + offset + bytes.length }.writePlain
            ((key.prepareCtrState ssl salt).mask ssl (48 + offset) bytes) =
            (false, { openedFile ssl key mode salt data offset with
              encryptionOffset := 48 + offset + bytes.length }) := by
          have hmode : mode = .read ∨ mode ≠ .read := em _
          have hlong : mode ≠ .read → maxFileSize < 116 + offset + bytes.length := by
            intro hne
            have := hfail.resolve_left hne
            simp only [kSkipBytes, sizeofFileHeader] at this
            omega
          cases mode with
          | read => rfl
          | write | readAppend =>
            simp only [File.writePlain, openedFile, CtrState.length_mask, if_pos (hlong (by simp))]
        have hback := decryptBack_openedFile ssl key mode salt data
          (show ((key.prepareCtrState ssl salt).mask ssl (48 + offset) bytes).length %
            kBlockSize = 0 by rwa [CtrState.length_mask]) ho16 hlt (116 + offset)
        rw [CtrState.length_mask] at hback
        rw [hwrite, if_pos hfail]
        simp only [openedFile] at hback ⊢
        simp only [hback]
        exact .ok false (.opened mode hsalt hmod hmax ho)
      · have hmode : mode ≠ .read := fun hr => hfail (.inl hr)
        have hfit : 116 + offset + bytes.length ≤ maxFileSize := by
          have : ¬maxFileSize < kSkipBytes + sizeofFileHeader + (offset + bytes.length) :=
            fun hl => hfail (.inr hl)
          simp only [kSkipBytes, sizeofFileHeader] at this
          omega
        have hlen := length_written data bytes ho
        have hsize : max data.length (File.offset (openedFile ssl key mode salt
            (data.take offset ++ bytes ++ data.drop (offset + bytes.length))
            (offset + bytes.length))) =
            (data.take offset ++ bytes ++ data.drop (offset + bytes.length)).length := by
          rw [hlen, offset_openedFile]
        rw [writePlain_openedFile hmode hsalt ho hfit, if_neg hfail]
        have hrel : Rel ssl key
            (openedFile ssl key mode salt
              (data.take offset ++ bytes ++ data.drop (offset + bytes.length))
              (offset + bytes.length))
            { stored := some (data.take offset ++ bytes ++ data.drop (offset + bytes.length))
              mode := some mode
              offset := offset + bytes.length } := by
          apply Rel.opened mode hsalt
          · rw [hlen]
            simp only [kBlockSize] at *
            omega
          · rw [hlen]
            omega
          · rw [hlen]
            omega
        rw [openedFile, ← hsize] at hrel
        exact .ok true hrel
    · have hproc : (key.prepareCtrState ssl salt).process ssl bytes (48 + offset) =
          .error .assertion := by
        rw [CtrState.process, if_pos]
        apply Or.inr
        simp only [kBlockSize] at ho16 ⊢
        omega
      have henc : (openedFile ssl key mode salt data offset).encrypt ssl bytes =
          .error .assertion := by
        simp only [File.encrypt, openedFile, CtrState.encrypt, hproc]
      have hplain : ByteFile.write { data := data, offset := offset } bytes =
          .error .assertion := by
        rw [ByteFile.write, if_pos (.inr ho16)]
      have hopen : (openedFile ssl key mode salt data offset).mode ≠ none := by simp [openedFile]
      rw [if_neg hopen, henc]
      simp only [PlainFile.toByteFile, PlainFile.bytes, Option.getD_some, hplain]
      exact .error _

/-! ### Padding -/

theorem agree_readPadded {σ τ : Type} {R : σ → τ → Prop}
    {readA : σ → Nat → Run (List UInt8 × σ)} {readB : τ → Nat → Run (List UInt8 × τ)}
    (hread : ∀ a b, R a b → ∀ n, Agree R (readA a n) (readB b n)) {a : σ} {b : τ} (h : R a b)
    (size : Nat) : Agree R (readPadded readA a size) (readPadded readB b size) := by
  have hfirst : Agree R
      (if size - size % kBlockSize = 0 then .ok ([], a) else readA a (size - size % kBlockSize))
      (if size - size % kBlockSize = 0 then .ok ([], b) else readB b (size - size % kBlockSize)) := by
    split
    · exact .ok [] h
    · exact hread a b h _
  rw [readPadded, readPadded]
  generalize (if size - size % kBlockSize = 0 then Except.ok ([], a) else
    readA a (size - size % kBlockSize)) = x at hfirst ⊢
  generalize (if size - size % kBlockSize = 0 then Except.ok ([], b) else
    readB b (size - size % kBlockSize)) = y at hfirst ⊢
  cases hfirst with
  | error stop => exact .error stop
  | @ok bytes a' b' h' =>
    simp only
    split
    · exact .ok bytes h'
    · have hlast := hread a' b' h' kBlockSize
      generalize readA a' kBlockSize = x, readB b' kBlockSize = y at hlast ⊢
      cases hlast with
      | error stop => exact .error stop
      | ok padded h'' =>
        cases padded with
        | nil => exact .ok bytes h''
        | cons c cs =>
          simp only
          split
          · exact .error _
          · exact .ok _ h''

theorem PlainFile.write_true {p' : PlainFile} {bytes : List UInt8}
    (h : p.write bytes = .ok (true, p')) :
    bytes.length % kBlockSize = 0 ∧ p.offset % kBlockSize = 0 ∧
      p'.offset = p.offset + bytes.length ∧ p'.mode = p.mode ∧ p.mode ≠ none := by
  by_cases hb : bytes.length % kBlockSize = 0
  · rw [PlainFile.write, if_neg (by simpa using hb)] at h
    cases hm : p.mode with
    | none => simp [hm] at h
    | some mode =>
      by_cases ho : p.offset % kBlockSize = 0
      · rw [hm] at h
        simp only [ByteFile.write_eq hb (show p.toByteFile.offset % kBlockSize = 0 from ho)] at h
        split at h
        · simp at h
        · simp only [Except.ok.injEq, Prod.mk.injEq, true_and] at h
          subst h
          exact ⟨hb, ho, rfl, rfl, by simp⟩
      · have he : p.toByteFile.write bytes = .error .assertion := if_pos (.inr ho)
        simp [hm, he] at h
  · rw [PlainFile.write, if_pos hb] at h
    cases h

theorem PlainFile.write_false {p' : PlainFile} {bytes : List UInt8}
    (h : p.write bytes = .ok (false, p')) : p' = p := by
  rw [PlainFile.write] at h
  split at h
  · cases h
  · cases hm : p.mode with
    | none =>
      simp only [hm, Except.ok.injEq, Prod.mk.injEq, true_and] at h
      exact h.symm
    | some mode =>
      cases hw : p.toByteFile.write bytes with
      | error stop => simp [hm, hw] at h
      | ok file =>
        simp only [hm, hw] at h
        split at h
        · simp only [Except.ok.injEq, Prod.mk.injEq, true_and] at h
          exact h.symm
        · simp at h

theorem Rel.back (h : Rel ssl key f p) (hm : p.mode ≠ none) {bytes : List UInt8}
    (hb : bytes.length % kBlockSize = 0) (ho : p.offset % kBlockSize = 0)
    (hle : bytes.length ≤ p.offset) :
    ∃ f', f.decryptBack ssl bytes = .ok f' ∧
      Rel ssl key { f' with pos := f'.pos - bytes.length }
        { p with offset := p.offset - bytes.length } := by
  cases h with
  | missing => exact absurd rfl hm
  | closed hsalt hmod hmax => exact absurd rfl hm
  | @opened mode salt data offset hsalt hmod hmax hod =>
    simp only at ho hle
    have hback := decryptBack_openedFile ssl key mode salt data hb
      (show (offset - bytes.length) % kBlockSize = 0 by simp only [kBlockSize] at *; omega)
      (show 48 + (offset - bytes.length) < 2 ^ 63 by simp only [maxFileSize] at hmax; omega)
      (116 + offset)
    have hoff : 48 + (offset - bytes.length) + bytes.length = 48 + offset := by omega
    have hpos : 116 + offset - bytes.length = 116 + (offset - bytes.length) := by omega
    rw [hoff] at hback
    refine ⟨_, hback, ?_⟩
    simp only [hpos]
    exact .opened mode hsalt hmod hmax (by omega)

theorem Rel.writeWithPadding (h : Rel ssl key f p) (bytes random : List UInt8) :
    Agree (Rel ssl key) (f.writeWithPadding ssl bytes random)
      (writePadded PlainFile.write
        (fun p bytes => .ok { p with offset := p.offset - bytes.length }) p bytes random) := by
  rw [File.writeWithPadding, writePadded, writePadded]
  generalize hgood : bytes.length - bytes.length % kBlockSize = good
  have hgm : good % kBlockSize = 0 := by
    simp only [kBlockSize] at *
    omega
  have hgl : (bytes.take good).length = good := by
    rw [List.length_take]
    omega
  have hlast := fun f p (h : Rel ssl key f p) =>
    h.write (bytes.drop good ++ random.drop (bytes.length % kBlockSize))
  generalize bytes.drop good ++ random.drop (bytes.length % kBlockSize) = last at hlast ⊢
  by_cases hz : good = 0
  · simp only [if_pos hz]
    split
    · exact .ok true h
    · have hw := hlast f p h
      generalize f.write ssl last = x, p.write last = y at hw ⊢
      cases hw with
      | error stop => exact .error stop
      | ok answer h' => cases answer <;> exact .ok _ h'
  · simp only [if_neg hz]
    have hw := h.write (bytes.take good)
    generalize hx : f.write ssl (bytes.take good) = x at hw ⊢
    generalize hy : p.write (bytes.take good) = y at hw ⊢
    cases hw with
    | error stop => exact .error stop
    | @ok answer f₁ p₁ h₁ =>
      cases answer with
      | false => exact .ok false h₁
      | true =>
        obtain ⟨-, ho, hoff, hmode, hopen⟩ := PlainFile.write_true hy
        rw [hgl] at hoff
        simp only
        split
        · exact .ok true h₁
        · have hw := hlast f₁ p₁ h₁
          generalize hx₁ : f₁.write ssl last = x at hw ⊢
          generalize hy₁ : p₁.write last = y at hw ⊢
          cases hw with
          | error stop => exact .error stop
          | @ok answer f₂ p₂ h₂ =>
            cases answer with
            | true => exact .ok true h₂
            | false =>
              have hp := PlainFile.write_false hy₁
              subst hp
              have hom : p₂.offset % kBlockSize = 0 := by
                simp only [kBlockSize] at *
                omega
              obtain ⟨f₃, hback, h₃⟩ := h₂.back (hmode ▸ hopen) (by rwa [hgl]) hom
                (by rw [hgl, hoff]; omega)
              simp only [hback]
              exact .ok false h₃

/-! ### Opening -/

theorem writePlain_append {mode : Mode} (hmode : mode ≠ .read) {bytes content : List UInt8}
    {pos : Nat} (hp : pos = content.length) (hfit : pos + bytes.length ≤ maxFileSize)
    (encryptionOffset dataSize : Nat) (state : Option CtrState) :
    (File.mk (some content) (some mode) pos encryptionOffset dataSize state).writePlain bytes =
      (true, .mk (some (content ++ bytes)) (some mode) (pos + bytes.length) encryptionOffset
        dataSize state) := by
  have hnot : ¬maxFileSize < pos + bytes.length := by omega
  have htake : content.take pos ++ bytes ++ content.drop (pos + bytes.length) = content ++ bytes := by
    rw [hp, List.take_length, List.drop_of_length_le (Nat.le_add_right _ _), List.append_nil]
  cases mode with
  | read => exact absurd rfl hmode
  | write | readAppend =>
    simp only [File.writePlain, File.bytes, Option.getD_some, if_neg hnot, htake]

theorem writeHeader_eq {mode : Mode} (hmode : mode ≠ .read) (hsalt : salt.length = kSaltSize) :
    (File.mk (some []) (some mode) 0 0 0 none).writeHeader ssl key salt =
      .ok (true, openedFile ssl key mode salt [] 0) := by
  have hlen := length_sealedHeader ssl key salt
  have hms := length_magic_salt hsalt
  have hmask : ((key.prepareCtrState ssl salt).mask ssl 0 (sealedHeader ssl key salt)).length = 48 := by
    rw [CtrState.length_mask, hlen]
  have hproc := CtrState.process_eq ssl (key.prepareCtrState ssl salt) (sealedHeader ssl key salt) 0
    (by rw [hlen]; rfl) rfl (by decide)
  have hmagic : magic.length = 4 := rfl
  have h₁ : (File.mk (some []) (some mode) 0 0 0 none).writePlain magic = _ :=
    writePlain_append hmode rfl (by decide) 0 0 none
  have h₂ : (File.mk (some magic) (some mode) 4 0 0
      (some (key.prepareCtrState ssl salt))).writePlain salt = _ :=
    writePlain_append hmode rfl (by rw [hsalt]; decide) 0 0 _
  have h₃ : (File.mk (some (magic ++ salt)) (some mode) 68 48 0
      (some (key.prepareCtrState ssl salt))).writePlain
        ((key.prepareCtrState ssl salt).mask ssl 0 (sealedHeader ssl key salt)) = _ :=
    writePlain_append hmode hms.symm (by rw [hmask]; decide) 48 0 _
  have hwrite : (File.mk (some (magic ++ salt)) (some mode) 68 0 0
      (some (key.prepareCtrState ssl salt))).write ssl (sealedHeader ssl key salt) =
      .ok (true, openedFile ssl key mode salt [] 0) := by
    rw [File.write, if_neg (by rw [hlen]; decide), if_neg (by simp)]
    simp only [File.encrypt, CtrState.encrypt, hproc, hlen, Nat.zero_add, h₃, hmask]
    simp [File.offset, openedFile, image, kSaltSize, sizeofFileHeader]
  rw [File.writeHeader, if_neg (by simp), h₁]
  simp only [List.nil_append, hmagic, List.length_nil, Nat.zero_add]
  rw [h₂]
  simp only [hsalt, hmagic, kSaltSize]
  rw [show leBytes 16 0 ++ File.checksum ssl key (File.checkedHeader salt) =
    sealedHeader ssl key salt from rfl, hwrite]
  rfl

theorem readHeader_eq {mode : Mode} (hmode : mode ≠ .write) (hsalt : salt.length = kSaltSize)
    (hmod : data.length % kBlockSize = 0) :
    (File.mk (some (image ssl key salt data)) (some mode) 0 0 0 none).readHeader ssl key =
      .ok (.success, openedFile ssl key mode salt data 0) := by
  have hlen := length_sealedHeader ssl key salt
  have himage : (image ssl key salt data).length = 116 + data.length := length_image hsalt
  have hheader : ((image ssl key salt data).drop kSkipBytes).take sizeofFileHeader =
      salt ++ (key.prepareCtrState ssl salt).mask ssl 0 (sealedHeader ssl key salt) := by
    have hsplit : sizeofFileHeader = salt.length + 48 := by rw [hsalt]; rfl
    rw [image, List.append_assoc, List.drop_left' (show magic.length = kSkipBytes from rfl), hsplit,
      List.take_length_add_append, CtrState.take_mask, List.take_left' hlen]
  have hmask : ((key.prepareCtrState ssl salt).mask ssl 0 (sealedHeader ssl key salt)).length = 48 := by
    rw [CtrState.length_mask, hlen]
  have hproc := CtrState.process_eq ssl (key.prepareCtrState ssl salt)
    ((key.prepareCtrState ssl salt).mask ssl 0 (sealedHeader ssl key salt)) 0
    (by rw [hmask]; rfl) rfl (by decide)
  rw [CtrState.mask_mask] at hproc
  have hplain : (File.mk (some (image ssl key salt data)) (some mode) kSkipBytes 0 0 none).readPlain
      sizeofFileHeader = .ok (salt ++ (key.prepareCtrState ssl salt).mask ssl 0
        (sealedHeader ssl key salt), .mk (some (image ssl key salt data)) (some mode) 116 0 0 none) := by
    cases mode with
    | write => exact absurd rfl hmode
    | read | readAppend =>
      simp only [File.readPlain, File.bytes, Option.getD_some, hheader, List.length_append, hmask,
        hsalt]
      rfl
  have hsum : (sealedHeader ssl key salt).drop 16 =
      File.checksum ssl key (salt ++ (sealedHeader ssl key salt).take 16) := by
    rw [sealedHeader, List.drop_left' (length_leBytes 16 0), List.take_left' (length_leBytes 16 0)]
    rfl
  have hsize : 116 + data.length - sizeofFileHeader - kSkipBytes -
      (116 + data.length - sizeofFileHeader - kSkipBytes) % kBlockSize = data.length := by
    simp only [sizeofFileHeader, kSkipBytes, kBlockSize] at *
    omega
  rw [File.readHeader, if_neg (by simp), hplain]
  simp only [List.length_append, hsalt, hmask]
  rw [if_neg (by simp [kSaltSize, sizeofFileHeader]), List.take_left' hsalt, List.drop_left' hsalt]
  simp only [File.decrypt, CtrState.decrypt, hproc]
  rw [if_neg (not_not.mpr hsum), if_neg (by simp [sealedHeader, leBytes])]
  simp only [File.bytes, Option.getD_some, himage]
  rw [if_neg (by simp only [sizeofFileHeader, kSkipBytes]; omega), hsize, hmask]
  rfl

theorem Rel.stored (h : Rel ssl key f p) :
    (f.disk = none ∧ p.stored = none) ∨
      ∃ salt data, salt.length = kSaltSize ∧ data.length % kBlockSize = 0 ∧
        116 + data.length ≤ maxFileSize ∧ f.disk = some (image ssl key salt data) ∧
        p.stored = some data := by
  cases h with
  | missing => exact .inl ⟨rfl, rfl⟩
  | @closed salt data hsalt hmod hmax => exact .inr ⟨salt, data, hsalt, hmod, hmax, rfl, rfl⟩
  | @opened mode salt data offset hsalt hmod hmax ho =>
    exact .inr ⟨salt, data, hsalt, hmod, hmax, rfl, rfl⟩

theorem image_ne_nil (hsalt : salt.length = kSaltSize) : image ssl key salt data ≠ [] := by
  apply List.length_pos_iff.mp
  rw [length_image hsalt]
  omega

/-- A new file is empty, and one that is there is found with its bytes. -/
theorem Rel.open (h : Rel ssl key f p) (mode : Mode) {salt : List UInt8}
    (hsalt : salt.length = kSaltSize) :
    Agree (Rel ssl key) (f.open ssl key salt mode) (.ok (p.open mode)) := by
  have hnew : ∀ mode : Mode, mode ≠ .read → Agree (Rel ssl key)
      (File.created ((File.mk (some []) (some mode) 0 0 0 none).writeHeader ssl key salt))
      (.ok (.success, { stored := some [], mode := some mode })) := by
    intro mode hmode
    rw [writeHeader_eq hmode hsalt]
    exact .ok _ (.opened mode hsalt rfl (by decide) le_rfl)
  rcases h.stored with ⟨hd, hp⟩ | ⟨salt', data, hsalt', hmod, hmax, hd, hp⟩
  · cases mode with
    | read =>
      simp only [File.open, File.close, hd, File.attemptOpen, PlainFile.open, PlainFile.close, hp,
        if_true]
      exact .ok _ .missing
    | readAppend =>
      have hn := hnew .readAppend (by simp)
      simp only [File.open, File.close, hd, File.attemptOpen, PlainFile.open, hp, File.bytes,
        PlainFile.bytes, Option.getD_none, Option.getD_some, if_true]
      rw [writeHeader_eq (by simp) hsalt] at hn ⊢
      exact hn
    | write =>
      have hn := hnew .write (by simp)
      simp only [File.open, File.close, hd, File.attemptOpen, PlainFile.open]
      rw [writeHeader_eq (by simp) hsalt] at hn ⊢
      exact hn
  · have hrel : ∀ mode, Rel ssl key (openedFile ssl key mode salt' data 0)
        { stored := some data, mode := some mode } :=
      fun mode => .opened mode hsalt' hmod hmax (Nat.zero_le _)
    cases mode with
    | read =>
      simp only [File.open, File.close, hd, File.attemptOpen, PlainFile.open, hp]
      rw [if_neg (by simp), if_neg (by simp), readHeader_eq (by simp) hsalt' hmod]
      exact .ok _ (hrel .read)
    | readAppend =>
      simp only [File.open, File.close, hd, File.attemptOpen, PlainFile.open, hp, File.bytes,
        PlainFile.bytes, Option.getD_some]
      rw [if_neg (image_ne_nil hsalt'), readHeader_eq (by simp) hsalt' hmod]
      exact .ok _ (hrel .readAppend)
    | write =>
      have hn := hnew .write (by simp)
      simp only [File.open, File.close, hd, File.attemptOpen, PlainFile.open]
      rw [writeHeader_eq (by simp) hsalt] at hn ⊢
      exact hn

theorem Rel.call (h : Rel ssl key f p) (c : Call) :
    Agree (Rel ssl key) (f.call ssl key c) (p.call c) := by
  cases c with
  | «open» mode salt =>
    have hsalt : salt.toList.length = kSaltSize := by simp [kSaltSize]
    exact (h.open mode hsalt).map Answer.opened
  | close => exact .ok _ h.close
  | read n => exact (h.read n).map _
  | readWithPadding n => exact (agree_readPadded (fun _ _ h n => h.read n) h n).map _
  | write bytes => exact (h.write bytes).map _
  | writeWithPadding bytes random => exact (h.writeWithPadding bytes random.toList).map _
  | seek offset =>
    obtain ⟨hanswer, hrel⟩ := h.seek offset
    rw [File.call, PlainFile.call, hanswer]
    exact .ok _ hrel

end TelegramClient
