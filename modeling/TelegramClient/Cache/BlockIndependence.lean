import Mathlib
import TelegramClient.Cache.ChunkReading

/-! When the reading of a binlog does not depend on the size of its blocks. The
reader checks the block size against the first record type only, so that a
longer record can fill the block. -/

namespace TelegramClient.Cache

/-- The part of a file behind its header that whole cipher blocks hold. -/
def wholeBlocks (bytes : List UInt8) : List UInt8 := bytes.take (bytes.length / 16 * 16)

/-- Both readers end without an assertion, hand over exactly these records and
leave the file at this offset. -/
def ReadOnce (F : Framing UInt8) (tracked : Bool) (B : Nat) (file : ByteFile)
    (records : List Record) (offset : Nat) : Prop :=
  (∃ fuel w, readBinlogHelper F B (recordCall tracked) fuel (.create file 0) [] =
      .ok (w, records) ∧ w.binlog.offset = offset) ∧
    ∀ chunk, 0 < chunk → ∃ fuel w, readChunks F B tracked chunk fuel (.create file file.size) [] =
      .ok (w, records) ∧ w.binlog.offset = offset

variable {tracked : Bool} {limit B : Nat} {rs : List Record} {header tail : List UInt8}

theorem framing_mod (tracked : Bool) (limit : Nat) :
    ∀ f, (binlogFraming tracked limit).IsFrame f → f.length % 16 = 0 :=
  fun _ h => length_mod_of_isFrame h

theorem framing_decode (tracked : Bool) (limit : Nat) :
    ∀ f, (binlogFraming tracked limit).IsFrame f → ∃ r, decodeRecord tracked f = .ok r :=
  fun _ h => decodeRecord_of_isFrame h

theorem pending_create {file : ByteFile} (hoff : file.offset % 16 = 0)
    (hle : file.offset ≤ file.size) (F : Framing UInt8) (till : Nat)
    (htill : till = 0 ∨ till = file.size) :
    (BinlogWrapper.create file till).Pending F ((file.data.take file.size).drop file.offset) := by
  have hcreate : (BinlogWrapper.create file till).till = file.size := by
    simp only [BinlogWrapper.create]
    split <;> omega
  constructor
  case toReady =>
    constructor
    case finished => rfl
    case stuck => exact Framing.stuck_nil
    case valid => simp [BinlogWrapper.create, F.nil_unknown]
    case part_mod => rfl
    case offset_mod => exact hoff
    case till_mod => rw [hcreate]; exact file.size_mod
    case offset_le => rw [hcreate]; exact hle
    case till_le => rw [hcreate]; exact le_rfl
    case unread_eq => rw [hcreate]; rfl
  case part_le => exact Nat.zero_le _

theorem encodeAll_eq (tracked : Bool) (rs : List Record) :
    encodeAll tracked rs = (rs.map (Record.encode tracked)).flatten := rfl

theorem isFrame_of_mem_encode (hlimit : limit < kBundledRecordsLimit)
    (hrs : ∀ r ∈ rs, r.WellFormed tracked limit) :
    ∀ f ∈ rs.map (Record.encode tracked), (binlogFraming tracked limit).IsFrame f := by
  intro f hf
  obtain ⟨r, hr, rfl⟩ := List.mem_map.mp hf
  exact isFrame_encode (hrs r hr) hlimit

theorem decodeAll_encode (hlimit : limit < kBundledRecordsLimit)
    (hrs : ∀ r ∈ rs, r.WellFormed tracked limit) :
    decodeAll tracked (rs.map (Record.encode tracked)) = rs := by
  induction rs with
  | nil => rfl
  | cons r rs ih =>
    have hr := decodeRecord_encode (hrs r (by simp)) hlimit
    rw [List.map_cons, decodeAll_cons hr, ih fun q hq => hrs q (by simp [hq])]

theorem length_encodeAll_mod (hlimit : limit < kBundledRecordsLimit)
    (hrs : ∀ r ∈ rs, r.WellFormed tracked limit) : (encodeAll tracked rs).length % 16 = 0 := by
  induction rs with
  | nil => rfl
  | cons r rs ih =>
    have hr := length_mod_of_isFrame (isFrame_encode (hrs r (by simp)) hlimit)
    have hi := ih fun q hq => hrs q (by simp [hq])
    rw [encodeAll_eq] at hi ⊢
    rw [List.map_cons, List.flatten_cons, List.length_append]
    omega

theorem wholeBlocks_append {bytes : List UInt8} (h : bytes.length % 16 = 0) (tail : List UInt8) :
    wholeBlocks (bytes ++ tail) = bytes ++ wholeBlocks tail := by
  have hl : (bytes ++ tail).length / 16 * 16 = bytes.length + tail.length / 16 * 16 := by
    rw [List.length_append]
    omega
  rw [wholeBlocks, hl, List.take_length_add_append, wholeBlocks]

theorem size_file (hheader : header.length = 16) (bytes : List UInt8) :
    ByteFile.size { data := header ++ bytes, offset := 16 } = 16 + (wholeBlocks bytes).length := by
  rw [ByteFile.size, wholeBlocks, List.length_take, List.length_append, hheader, kBlockSize]
  omega

theorem unread_file (hheader : header.length = 16) (bytes : List UInt8) :
    let file : ByteFile := { data := header ++ bytes, offset := 16 }
    (file.data.take file.size).drop file.offset = wholeBlocks bytes := by
  intro file
  have hsize : file.size = header.length + (wholeBlocks bytes).length := by
    rw [size_file hheader, hheader]
  have hlen : (wholeBlocks bytes).length = bytes.length / 16 * 16 := by
    rw [wholeBlocks, List.length_take]
    omega
  rw [hsize, List.take_length_add_append, hlen]
  exact List.drop_left' hheader

section

variable {F : Framing UInt8} (hF : ∀ f, F.IsFrame f → f.length % 16 = 0)
  (hdecode : ∀ f, F.IsFrame f → ∃ r, decodeRecord tracked f = .ok r)
  (hheader : header.length = 16) (hBm : B % 16 = 0)

include hF hdecode hheader hBm

theorem fits_of_readOnce {bytes : List UInt8} {records : List Record} {offset : Nat}
    (h : ReadOnce F tracked B { data := header ++ bytes, offset := 16 } records offset) :
    Fits F B (wholeBlocks bytes) := by
  have hsize := size_file hheader bytes
  have hunread := unread_file hheader bytes
  obtain ⟨file, hfile⟩ : ∃ file : ByteFile, file = { data := header ++ bytes, offset := 16 } :=
    ⟨_, rfl⟩
  rw [← hfile] at hsize hunread h
  have hoff : file.offset = 16 := by rw [hfile]
  have hpend := pending_create (by rw [hoff]) (by rw [hsize, hoff]; omega) F 0 (.inl rfl)
  rw [hunread] at hpend
  have hgood : ∀ records f, F.IsFrame f → ∃ records', recordCall tracked records f =
      .ok (records', true) := by
    intro records f hf
    obtain ⟨r, hr⟩ := hdecode f hf
    exact ⟨records ++ [r], by simp [recordCall, hr]⟩
  obtain ⟨⟨fuel, w, hrun, -⟩, -⟩ := h
  by_contra hnot
  obtain ⟨stop, hstop⟩ := readBinlogHelper_assertion (s := []) hF hBm hpend (Nat.zero_le _) hnot
    hgood fuel
  rw [hstop] at hrun
  cases hrun

theorem readOnce_iff (hhead : F.header ≤ 16) (hB : 0 < B) (bytes : List UInt8) :
    ReadOnce F tracked B { data := header ++ bytes, offset := 16 }
        (decodeAll tracked (F.frames (wholeBlocks bytes)))
        (16 + (F.frames (wholeBlocks bytes)).flatten.length) ↔
      Fits F B (wholeBlocks bytes) ∧ (F.rest (wholeBlocks bytes) = [] ∨
        F.measure (F.rest (wholeBlocks bytes)) = .invalid ∨
        (decodeAll tracked (F.frames (wholeBlocks bytes))).flatMap storedKeys = []) := by
  have hsize := size_file hheader bytes
  have hunread := unread_file hheader bytes
  obtain ⟨file, hfile⟩ : ∃ file : ByteFile, file = { data := header ++ bytes, offset := 16 } :=
    ⟨_, rfl⟩
  rw [← hfile] at hsize hunread ⊢
  have hoff : file.offset = 16 := by rw [hfile]
  have hpend := fun till => pending_create (by rw [hoff]) (by rw [hsize, hoff]; omega) F till
  rw [hunread] at hpend
  have h₁ := hpend 0 (.inl rfl)
  have h₂ := hpend file.size (.inr rfl)
  have htill₁ : (BinlogWrapper.create file 0).till = file.size := rfl
  have htill₂ : (BinlogWrapper.create file file.size).till = file.size := by
    simp [BinlogWrapper.create]
  have hlen := congrArg List.length (Framing.flatten_frames_append_rest (F := F) (wholeBlocks bytes))
  rw [List.length_append] at hlen
  have hfeed := feed_frames hdecode (wholeBlocks bytes) []
  rw [List.nil_append] at hfeed
  constructor
  · intro hread
    have hfit := fits_of_readOnce hF hdecode hheader hBm (hfile ▸ hread)
    obtain ⟨-, hchunks⟩ := hread
    refine ⟨hfit, ?_⟩
    by_contra hno
    simp only [not_or] at hno
    obtain ⟨hne, hv, hkeys⟩ := hno
    obtain ⟨fuel, w, hrun, hw⟩ := hchunks (_ + 1) (Nat.succ_pos _)
    have htorn := readChunks_torn hF hhead hdecode hBm hB h₂ rfl hfit rfl hne hv hkeys
      (Nat.lt_succ_self _) hrun
    rw [htill₂, hsize] at htorn
    omega
  · rintro ⟨hfit, hrest⟩
    constructor
    · rcases readBinlogHelper_eq hF hhead hBm hB h₁ hfit _ le_rfl with
        ⟨stop, hs, -⟩ | ⟨s', refused, w, hs, hrun, hdone⟩
      · have := hs.symm.trans hfeed
        cases this
      · have := hs.symm.trans hfeed
        simp only [Except.ok.injEq, Prod.mk.injEq] at this
        obtain ⟨rfl, rfl⟩ := this
        refine ⟨_, w, hrun, ?_⟩
        rw [hdone.binlog, htill₁, hsize]
        simp only [List.flatten_nil, List.length_nil, BinlogWrapper.create, List.nil_append]
        omega
    · intro chunk hchunk
      obtain ⟨w, hrun, hw⟩ := readChunks_eq hF hhead hdecode hBm hB h₂ hfit rfl hchunk [] hrest _
        le_rfl
      refine ⟨_, w, hrun, ?_⟩
      rw [hw, htill₂, hsize]
      simp only [BinlogWrapper.create, List.nil_append]
      omega

end

/-- The records of a well-formed log are read once each and in order, whatever
follows them, exactly when every one of them and what is torn fits into a block,
and a torn record does not follow records that store. -/
theorem reading_independent_of_blocks (hlimit : limit < kBundledRecordsLimit)
    (hrs : ∀ r ∈ rs, r.WellFormed tracked limit) (hheader : header.length = 16)
    (hBm : B % 16 = 0) (hB : sizeofStore tracked ≤ B) (tail : List UInt8) :
    let F := binlogFraming tracked limit
    let body := wholeBlocks tail
    let records := rs ++ decodeAll tracked (F.frames body)
    ReadOnce F tracked B { data := header ++ (encodeAll tracked rs ++ tail), offset := 16 }
        records (16 + (encodeAll tracked rs).length + (F.frames body).flatten.length) ↔
      (∀ r ∈ rs, (r.encode tracked).length ≤ B) ∧ Fits F B body ∧
        (F.rest body = [] ∨ F.measure (F.rest body) = .invalid ∨
          records.flatMap storedKeys = []) := by
  intro F body records
  have hpos : 0 < B := lt_of_lt_of_le (by cases tracked <;> decide) hB
  have hwhole := wholeBlocks_append (length_encodeAll_mod hlimit hrs) tail
  have hframe : ∀ f ∈ rs.map (Record.encode tracked), F.IsFrame f :=
    isFrame_of_mem_encode hlimit hrs
  have hframes : F.frames (wholeBlocks (encodeAll tracked rs ++ tail)) =
      rs.map (Record.encode tracked) ++ F.frames body := by
    rw [hwhole, encodeAll_eq, Framing.frames_flatten_append hframe]
  have hrest : F.rest (wholeBlocks (encodeAll tracked rs ++ tail)) = F.rest body := by
    rw [hwhole, encodeAll_eq, Framing.rest_flatten_append hframe]
  have hrecords : decodeAll tracked (F.frames (wholeBlocks (encodeAll tracked rs ++ tail))) =
      records := by
    rw [hframes, decodeAll_append, decodeAll_encode hlimit hrs]
  have hoffset : 16 + (encodeAll tracked rs).length + (F.frames body).flatten.length =
      16 + (F.frames (wholeBlocks (encodeAll tracked rs ++ tail))).flatten.length := by
    rw [hframes, List.flatten_append, List.length_append, encodeAll_eq, Nat.add_assoc]
  have hiff := readOnce_iff (framing_mod tracked limit) (framing_decode tracked limit) hheader hBm
    (le_refl 16) hpos (encodeAll tracked rs ++ tail)
  rw [hoffset, ← hrecords]
  apply hiff.trans
  rw [Fits, Fits, hframes, hrest]
  simp only [List.mem_append, List.mem_map]
  constructor
  · rintro ⟨⟨hall, hr⟩, hcase⟩
    exact ⟨fun r hm => hall _ (.inl ⟨r, hm, rfl⟩), ⟨fun f hf => hall f (.inr hf), hr⟩, hcase⟩
  · rintro ⟨hall, ⟨hbody, hr⟩, hcase⟩
    refine ⟨⟨?_, hr⟩, hcase⟩
    rintro f (⟨r, hm, rfl⟩ | hf)
    · exact hall r hm
    · exact hbody f hf

theorem reading_independent_of_blocks_small :
    ReadOnce (binlogFraming true 5) true 64
      { data := List.replicate 16 0 ++
          (encodeAll true [.store { size := 1 }, .multiRemove [{ low := 1 }, {}, {}]] ++ []),
        offset := 16 }
      [.store { size := 1 }, .multiRemove [{ low := 1 }, {}, {}]] 128 := by
  have hrs : ∀ r ∈ [Record.store { size := 1 }, .multiRemove [{ low := 1 }, {}, {}]],
      r.WellFormed true 5 := by
    simp [Record.WellFormed, Store.Fits]
  exact (reading_independent_of_blocks (by decide) hrs rfl rfl (by decide) []).mpr
    ⟨by decide, by decide, .inl rfl⟩

/-- Three removed keys need 64 bytes, but blocks of 48 bytes pass the check of
the settings. -/
theorem long_record_fills_the_block :
    let r : Record := .multiRemove [{ low := 1 }, {}, {}]
    r.WellFormed true 5 ∧ 48 % 16 = 0 ∧ sizeofStore true ≤ 48 ∧
      ¬ReadOnce (binlogFraming true 5) true 48
        { data := List.replicate 16 0 ++ encodeAll true [r], offset := 16 } [r] 80 := by
  intro r
  refine ⟨by simp [r, Record.WellFormed], rfl, by decide, ?_⟩
  intro h
  have hfit := fits_of_readOnce (framing_mod true 5) (framing_decode true 5) rfl rfl h
  exact absurd hfit (by decide)

end TelegramClient.Cache
