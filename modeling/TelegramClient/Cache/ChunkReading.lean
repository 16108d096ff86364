import Mathlib
import TelegramClient.Cache.BinlogReading

/-! The compactor's reading of the old binlog in chunks of keys, and the exact
condition under which both readers see every record once, whatever the blocks. -/

namespace TelegramClient.Cache

/-- A handler that takes every record and notes it. -/
def recordCall (tracked : Bool) (records : List Record) (bytes : List UInt8) :
    Run (List Record × Bool) :=
  match decodeRecord tracked bytes with
  | .error stop => .error stop
  | .ok r => .ok (records ++ [r], true)

def storedKeys : Record → List Key
  | .store s => [s.key]
  | .multiStore parts => parts.map Store.key
  | .multiRemove _ => []
  | .multiAccess _ _ => []

section

variable (F : Framing UInt8) (readBlockSize : Nat) (tracked : Bool) (chunk : Nat)

/-- The records of one chunk; the keys it asks the database for are theirs. -/
def readChunk : Nat → BinlogWrapper → List Record → Run (BinlogWrapper × List Record)
  | 0, _, _ => .error .running
  | fuel + 1, w, records =>
    if chunk ≤ (records.flatMap storedKeys).length then .ok (w, records)
    else
      match readTillEnd F readBlockSize (recordCall tracked) w records with
      | .error stop => .error stop
      | .ok (true, w, records) => .ok (w, records)
      | .ok (false, w, records) => readChunk fuel w records

/-- `parseChunk` after `parseChunk`, with all the records seen so far. -/
def readChunks : Nat → BinlogWrapper → List Record → Run (BinlogWrapper × List Record)
  | 0, _, _ => .error .running
  | fuel + 1, w, seen =>
    match readChunk F readBlockSize tracked chunk fuel w [] with
    | .error stop => .error stop
    | .ok (w, records) =>
      if w.failed = true ∨ records.flatMap storedKeys = [] then .ok (w, seen ++ records)
      else readChunks fuel w (seen ++ records)

end

def decodeAll (tracked : Bool) (fs : List (List UInt8)) : List Record :=
  fs.filterMap fun f => (decodeRecord tracked f).toOption

@[simp] theorem decodeAll_append (tracked : Bool) (fs gs : List (List UInt8)) :
    decodeAll tracked (fs ++ gs) = decodeAll tracked fs ++ decodeAll tracked gs :=
  List.filterMap_append

variable {F : Framing UInt8} {tracked : Bool} {B chunk : Nat} {w w' : BinlogWrapper}
  {unread : List UInt8} {records : List Record}

theorem decodeAll_cons {f : List UInt8} {r : Record} (h : decodeRecord tracked f = .ok r)
    (fs : List (List UInt8)) : decodeAll tracked (f :: fs) = r :: decodeAll tracked fs := by
  rw [decodeAll, List.filterMap_cons, h]
  rfl

theorem BinlogWrapper.Done.pending_nil {bytes : List UInt8} (h : w.Pending F unread)
    (hd : w.Done F bytes [] w') (hrest : F.rest bytes = []) : w'.Pending F [] := by
  obtain ⟨ht, hb, -, hfin, hp⟩ := hd
  rw [hrest] at hb hfin hp
  have hne : F.measure [] ≠ .invalid := by simp [F.nil_unknown]
  have hpart := hp rfl hne
  have hoff : w'.binlog.offset = w.till := by simp [hb]
  have htm := h.till_mod
  have hsize : w'.binlog.size = w.binlog.size := by rw [hb, ByteFile.size, ByteFile.size]
  constructor
  case toReady =>
    constructor
    case finished =>
      rw [← Bool.not_eq_true]
      exact fun hf => hne (hfin hf)
    case stuck => rw [hpart]; exact Framing.stuck_nil
    case valid => rwa [hpart]
    case part_mod => simp [hpart]
    case offset_mod => omega
    case till_mod => omega
    case offset_le => omega
    case till_le =>
      have := h.till_le
      omega
    case unread_eq =>
      rw [hoff, ht]
      apply List.drop_of_length_le
      exact List.length_take_le _ _
  case part_le => simp [hpart]

/-- A chunk that is over because it has enough keys. -/
structure ChunkFull (F : Framing UInt8) (tracked : Bool) (chunk : Nat) (w : BinlogWrapper)
    (unread : List UInt8) (records : List Record) (w' : BinlogWrapper) (records' : List Record)
    (unread' : List UInt8) (fs : List (List UInt8)) : Prop where
  pending : w'.Pending F unread'
  length_le : unread'.length ≤ unread.length
  till : w'.till = w.till
  data : w'.binlog.data = w.binlog.data
  failed : w'.failed = false
  full : chunk ≤ (records'.flatMap storedKeys).length
  frames : F.frames (w.part ++ unread) = fs ++ F.frames (w'.part ++ unread')
  rest : F.rest (w.part ++ unread) = F.rest (w'.part ++ unread')
  records : records' = records ++ decodeAll tracked fs

theorem readChunk_mono {fuel : Nat} {p : BinlogWrapper × List Record}
    (h : readChunk F B tracked chunk fuel w records = .ok p) (k : Nat) :
    readChunk F B tracked chunk (fuel + k) w records = .ok p := by
  induction fuel generalizing w records with
  | zero => cases h
  | succ fuel ih =>
    rw [Nat.succ_add, readChunk]
    rw [readChunk] at h
    by_cases hc : chunk ≤ (records.flatMap storedKeys).length
    · rwa [if_pos hc] at h ⊢
    rw [if_neg hc] at h ⊢
    cases hr : readTillEnd F B (recordCall tracked) w records with
    | error stop => simp [hr] at h
    | ok q =>
      obtain ⟨done, w₁, records₁⟩ := q
      cases done with
      | true => simpa [hr] using h
      | false =>
        simp only [hr] at h ⊢
        exact ih h

theorem handleRecords_length {fuel : Nat} {done : Bool} {records' : List Record}
    (h : handleRecords F (recordCall tracked) fuel w records = .ok (done, w', records')) :
    records.length ≤ records'.length := by
  induction fuel generalizing w records with
  | zero => cases h
  | succ fuel ih =>
    rw [handleRecords] at h
    rcases hq : w.readRecord F with ⟨bytes, w₁⟩
    rw [hq] at h
    cases bytes with
    | nil =>
      simp only [Except.ok.injEq, Prod.mk.injEq] at h
      rw [h.2.2]
    | cons b bs =>
      cases hd : decodeRecord tracked (b :: bs) with
      | error stop => simp [recordCall, hd] at h
      | ok r =>
        have := ih (by simpa [recordCall, hd] using h)
        rw [List.length_append] at this
        omega

theorem readTillEnd_length {done : Bool} {records' : List Record}
    (h : readTillEnd F B (recordCall tracked) w records = .ok (done, w', records')) :
    records.length ≤ records'.length := by
  rw [readTillEnd] at h
  cases hp : w.readPart B with
  | error stop => simp [hp] at h
  | ok q =>
    obtain ⟨more, w₁⟩ := q
    cases more with
    | true => exact handleRecords_length (by simpa [hp] using h)
    | false =>
      simp only [hp, Except.ok.injEq, Prod.mk.injEq] at h
      rw [h.2.2]

theorem readChunk_length {fuel : Nat} {records' : List Record}
    (h : readChunk F B tracked chunk fuel w records = .ok (w', records')) :
    records.length ≤ records'.length := by
  induction fuel generalizing w records with
  | zero => cases h
  | succ fuel ih =>
    rw [readChunk] at h
    by_cases hc : chunk ≤ (records.flatMap storedKeys).length
    · rw [if_pos hc, Except.ok.injEq, Prod.mk.injEq] at h
      rw [h.2]
    rw [if_neg hc] at h
    cases hr : readTillEnd F B (recordCall tracked) w records with
    | error stop => simp [hr] at h
    | ok q =>
      obtain ⟨done, w₁, records₁⟩ := q
      have hlen := readTillEnd_length hr
      cases done with
      | true =>
        simp only [hr, Except.ok.injEq, Prod.mk.injEq] at h
        rwa [← h.2]
      | false =>
        simp only [hr] at h
        exact hlen.trans (ih h)

theorem readChunks_length {fuel : Nat} {seen records' : List Record}
    (h : readChunks F B tracked chunk fuel w seen = .ok (w', records')) :
    seen.length ≤ records'.length := by
  induction fuel generalizing w seen with
  | zero => cases h
  | succ fuel ih =>
    rw [readChunks] at h
    cases hr : readChunk F B tracked chunk fuel w [] with
    | error stop => simp [hr] at h
    | ok q =>
      obtain ⟨w₁, records₁⟩ := q
      simp only [hr] at h
      have hlen : seen.length ≤ (seen ++ records₁).length := by simp
      by_cases hstop : w₁.failed = true ∨ records₁.flatMap storedKeys = []
      · rw [if_pos hstop, Except.ok.injEq, Prod.mk.injEq] at h
        rwa [← h.2]
      · rw [if_neg hstop] at h
        exact hlen.trans (ih h)

section Chunk

variable (hF : ∀ f, F.IsFrame f → f.length % 16 = 0) (hhead : F.header ≤ 16)
  (hdecode : ∀ f, F.IsFrame f → ∃ r, decodeRecord tracked f = .ok r) (hBm : B % 16 = 0)
  (hB : 0 < B)

include hdecode

theorem feed_recordCall {fs : List (List UInt8)} (h : ∀ f ∈ fs, F.IsFrame f)
    (records : List Record) :
    feed (recordCall tracked) records fs = .ok (records ++ decodeAll tracked fs, []) := by
  induction fs generalizing records with
  | nil => simp [feed, decodeAll]
  | cons f fs ih =>
    obtain ⟨r, hr⟩ := hdecode f (h f (by simp))
    have hi := ih (fun g hg => h g (by simp [hg])) (records ++ [r])
    rw [decodeAll_cons hr]
    simpa [feed, recordCall, hr] using hi

theorem length_decodeAll {fs : List (List UInt8)} (h : ∀ f ∈ fs, F.IsFrame f) :
    (decodeAll tracked fs).length = fs.length := by
  induction fs with
  | nil => rfl
  | cons f fs ih =>
    obtain ⟨r, hr⟩ := hdecode f (h f (by simp))
    rw [decodeAll_cons hr, List.length_cons, List.length_cons, ih fun g hg => h g (by simp [hg])]

theorem feed_frames (bytes : List UInt8) (records : List Record) :
    feed (recordCall tracked) records (F.frames bytes) =
      .ok (records ++ decodeAll tracked (F.frames bytes), []) :=
  feed_recordCall hdecode (fun _ hf => Framing.isFrame_of_mem_frames hf) records

include hF hhead hBm hB

theorem readChunk_cases (h : w.Pending F unread) (hfit : Fits F B (w.part ++ unread))
    (hfailed : w.failed = false) (chunk : Nat) (records : List Record) (fuel : Nat)
    (hfuel : unread.length + 2 ≤ fuel) :
    ∃ w' records', readChunk F B tracked chunk fuel w records = .ok (w', records') ∧
      (w.Done F (w.part ++ unread) [] w' ∧
          records' = records ++ decodeAll tracked (F.frames (w.part ++ unread)) ∨
        ∃ unread' fs, ChunkFull F tracked chunk w unread records w' records' unread' fs) := by
  induction hl : unread.length using Nat.strong_induction_on generalizing w unread records fuel with
  | _ l ih =>
    obtain ⟨fuel, rfl⟩ : ∃ k, fuel = k + 2 := ⟨fuel - 2, by omega⟩
    by_cases hc : chunk ≤ (records.flatMap storedKeys).length
    · refine ⟨w, records, by rw [readChunk, if_pos hc], Or.inr ⟨unread, [], ?_⟩⟩
      exact ⟨h, le_rfl, rfl, rfl, hfailed, hc, by simp, rfl, by simp [decodeAll]⟩
    by_cases hu : unread = []
    · subst hu
      refine ⟨w.finish 0, records, ?_, Or.inl ⟨h.done_nil, ?_⟩⟩
      · rw [readChunk, if_neg hc, readTillEnd_nil h.toReady]
      · rw [List.append_nil, Framing.frames_of_stuck h.stuck]
        simp [decodeAll]
    have hpB := h.part_lt hhead hB hfit hu
    rw [readChunk, if_neg hc, readTillEnd_more h.toReady hu hBm hpB, feed_frames hdecode]
    generalize hr₁ : records ++ decodeAll tracked (F.frames (w.block B unread).part) = records₁
    by_cases hv : F.measure (F.rest (w.block B unread).part) = .invalid
    · obtain ⟨hframes, -, hfalse, hfin, hdone⟩ := afterRecords_invalid h hv
      refine ⟨(afterRecords F (w.block B unread) []).2, records₁, ?_, Or.inl ⟨hdone, ?_⟩⟩
      · simp only [hfalse]
        by_cases hc₁ : chunk ≤ (records₁.flatMap storedKeys).length
        · rw [readChunk, if_pos hc₁]
        · rw [readChunk, if_neg hc₁]
          simp [readTillEnd, BinlogWrapper.readPart, hfin]
      · rw [hframes, hr₁]
    · have hpos := BinlogWrapper.amount_pos hpB hu
      have hulen := List.length_pos_iff.mpr hu
      have hlt : (unread.drop (w.amount B unread)).length < l := by
        rw [List.length_drop]
        omega
      obtain ⟨w', records', hrun, hi⟩ := ih _ hlt (h.next hF hBm hv) hfit.next hfailed records₁
        (fuel + 1) (by omega) rfl
      refine ⟨w', records', ?_, ?_⟩
      · simp only [afterRecords_next hv]
        exact hrun
      rcases hi with ⟨hdone, hrec⟩ | ⟨unread', fs, hfull⟩
      · refine Or.inl ⟨hdone.of_next, ?_⟩
        rw [hrec, ← hr₁, frames_block F w B unread, decodeAll_append, List.append_assoc]
      · refine Or.inr ⟨unread', F.frames (w.block B unread).part ++ fs, ?_⟩
        obtain ⟨hp, hle, ht, hd, hf, hk, hfr, hre, hrec⟩ := hfull
        refine ⟨hp, by omega, ht, hd, hf, hk, ?_, ?_, ?_⟩
        · rw [frames_block F w B unread, hfr, List.append_assoc]
        · rw [rest_block F w B unread, hre]
        · rw [hrec, ← hr₁, decodeAll_append, List.append_assoc]

/-- When the tail cannot be read a second time, or holds nothing the compactor
would ask for, reading chunk by chunk sees every record once. -/
theorem readChunks_eq (h : w.Pending F unread) (hfit : Fits F B (w.part ++ unread))
    (hfailed : w.failed = false) (hchunk : 0 < chunk) (seen : List Record)
    (hrest : F.rest (w.part ++ unread) = [] ∨ F.measure (F.rest (w.part ++ unread)) = .invalid ∨
      (decodeAll tracked (F.frames (w.part ++ unread))).flatMap storedKeys = [])
    (fuel : Nat) (hfuel : unread.length + (F.frames (w.part ++ unread)).length + 4 ≤ fuel) :
    ∃ w', readChunks F B tracked chunk fuel w seen =
        .ok (w', seen ++ decodeAll tracked (F.frames (w.part ++ unread))) ∧
      w'.binlog = { w.binlog with offset := w.till - (F.rest (w.part ++ unread)).length } := by
  induction hl : (F.frames (w.part ++ unread)).length using Nat.strong_induction_on
    generalizing w unread seen fuel with
  | _ l ih =>
    obtain ⟨fuel, rfl⟩ : ∃ k, fuel = k + 1 := ⟨fuel - 1, by omega⟩
    obtain ⟨w₁, records, hrun, hcase⟩ := readChunk_cases hF hhead hdecode hBm hB h hfit hfailed
      chunk [] fuel (by omega)
    rw [readChunks, hrun]
    have hnone : ∀ bytes : List UInt8, (decodeAll tracked (F.frames bytes)).flatMap storedKeys ≠ [] →
        0 < (F.frames bytes).length := by
      intro bytes hne
      apply List.length_pos_iff.mpr
      intro he
      simp [he, decodeAll] at hne
    rcases hcase with ⟨hdone, rfl⟩ | ⟨unread', fs, hfull⟩
    · rw [List.nil_append]
      by_cases hstop : w₁.failed = true ∨
          (decodeAll tracked (F.frames (w.part ++ unread))).flatMap storedKeys = []
      · refine ⟨w₁, by simp only [if_pos hstop], ?_⟩
        rw [hdone.binlog, List.flatten_nil, List.length_nil, Nat.zero_add]
      have hv : F.measure (F.rest (w.part ++ unread)) ≠ .invalid := by
        intro hi
        apply hstop
        rw [hdone.failed]
        simp [hi]
      have hkeys := fun he => hstop (.inr he)
      have hr : F.rest (w.part ++ unread) = [] := by
        rcases hrest with hr | hi | hk
        · exact hr
        · exact absurd hi hv
        · exact absurd hk hkeys
      have hf₁ : w₁.failed = false := by
        rw [← Bool.not_eq_true]
        exact fun hf => hstop (.inl hf)
      have hp := hdone.pending_nil h hr
      have hpart : w₁.part ++ [] = [] := by rw [hdone.part rfl hv, hr, List.append_nil]
      have hfr : F.frames (w₁.part ++ []) = [] := by
        rw [hpart]
        exact Framing.frames_of_stuck Framing.stuck_nil
      have hre : F.rest (w₁.part ++ []) = [] := by
        rw [hpart]
        exact Framing.rest_of_stuck Framing.stuck_nil
      have hlt := hnone _ hkeys
      obtain ⟨w₂, hrun₂, hb⟩ := ih 0 (by omega) hp (by rw [Fits, hfr, hre]; simp) hf₁
        (seen ++ decodeAll tracked (F.frames (w.part ++ unread))) (.inl hre) fuel
        (by simp only [hfr, List.length_nil]; omega) (by rw [hfr, List.length_nil])
      refine ⟨w₂, ?_, ?_⟩
      · simp only [if_neg hstop, hrun₂, hfr]
        simp [decodeAll]
      · rw [hb, hdone.binlog, hdone.till, hre, hr]
    · obtain ⟨hp, hle, ht, hd, hf₁, hk, hfr, hre, hrec⟩ := hfull
      rw [List.nil_append] at hrec
      have hkeys : records.flatMap storedKeys ≠ [] := by
        intro he
        rw [he, List.length_nil] at hk
        omega
      have hfs : 0 < fs.length := by
        apply List.length_pos_iff.mpr
        rintro rfl
        simp [hrec, decodeAll] at hkeys
      have hstop : ¬(w₁.failed = true ∨ records.flatMap storedKeys = []) := by
        simp [hf₁, hkeys]
      have hlen := congrArg List.length hfr
      rw [List.length_append] at hlen
      have hfit₁ : Fits F B (w₁.part ++ unread') := by
        refine ⟨fun f hf => hfit.1 f ?_, ?_⟩
        · rw [hfr]
          exact List.mem_append_right _ hf
        · rw [← hre]
          exact hfit.2
      have hrest₁ : F.rest (w₁.part ++ unread') = [] ∨
          F.measure (F.rest (w₁.part ++ unread')) = .invalid ∨
          (decodeAll tracked (F.frames (w₁.part ++ unread'))).flatMap storedKeys = [] := by
        rw [← hre]
        rcases hrest with hr | hi | hall
        · exact .inl hr
        · exact .inr (.inl hi)
        · rw [hfr, decodeAll_append, List.flatMap_append, List.append_eq_nil_iff, ← hrec] at hall
          exact absurd hall.1 hkeys
      obtain ⟨w₂, hrun₂, hb⟩ := ih _ (by omega) hp hfit₁ hf₁ (seen ++ records) hrest₁ fuel
        (by omega) rfl
      refine ⟨w₂, ?_, ?_⟩
      · simp only [if_neg hstop, hrun₂]
        rw [hfr, decodeAll_append, hrec, List.append_assoc]
      · rw [hb, ht, hre]
        exact congrArg (ByteFile.mk · _) hd

omit hB in
/-- Back at the torn record the reader keeps its bytes, and the next chunk reads
them once more behind themselves. -/
theorem readChunk_torn (h : w.Ready F (w.part)) (hpart : w.part ≠ []) (hchunk : 0 < chunk)
    {fuel : Nat} {records : List Record}
    (hrun : readChunk F B tracked chunk fuel w [] = .ok (w', records)) :
    records ≠ [] ∨ w'.binlog.offset ≠ w.binlog.offset := by
  have hlen := List.length_pos_iff.mpr hpart
  have hmod := h.part_mod
  have hunread := h.length_unread
  have hoff := h.offset_le
  have hnone : ¬chunk ≤ (([] : List Record).flatMap storedKeys).length := by
    simp only [List.flatMap_nil, List.length_nil]
    omega
  cases fuel with
  | zero => cases hrun
  | succ fuel =>
  rw [readChunk, if_neg hnone] at hrun
  by_cases hfull : B ≤ w.part.length
  · simp [readTillEnd, h.readPart_full hpart hfull] at hrun
  have hlt := Nat.lt_of_not_le hfull
  rw [readTillEnd_more h hpart hBm hlt, feed_frames hdecode, List.nil_append] at hrun
  by_cases hframes : F.frames (w.block B w.part).part = []
  · have hrest : F.rest (w.block B w.part).part = (w.block B w.part).part := by
      have := Framing.flatten_frames_append_rest (F := F) (w.block B w.part).part
      rwa [hframes, List.flatten_nil, List.nil_append] at this
    have hv : F.measure (F.rest (w.block B w.part).part) ≠ .invalid := by
      rw [hrest, BinlogWrapper.block, F.stable _ _ (F.ne_unknown _ (by omega))]
      exact h.valid
    have hnext := h.next hF hBm hv
    have hpl : (w.next F B w.part).part.length = w.part.length + w.amount B w.part := by
      have hle : w.amount B w.part ≤ w.part.length := Nat.min_le_left _ _
      rw [BinlogWrapper.next, BinlogWrapper.withPart_part, hrest, BinlogWrapper.block,
        List.length_append, List.length_take, Nat.min_eq_left hle]
    have hpo : (w.next F B w.part).binlog.offset = w.binlog.offset + w.amount B w.part := rfl
    have hamount : w.amount B w.part = min w.part.length (B - w.part.length) := rfl
    rw [hframes] at hrun
    simp only [afterRecords_next hv, decodeAll, List.filterMap_nil] at hrun
    cases fuel with
    | zero => cases hrun
    | succ fuel =>
    rw [readChunk, if_neg hnone] at hrun
    by_cases hdrop : w.part.drop (w.amount B w.part) = []
    · rw [hdrop] at hnext
      have hall := List.drop_eq_nil_iff.mp hdrop
      simp only [readTillEnd_nil hnext, Except.ok.injEq, Prod.mk.injEq] at hrun
      apply Or.inr
      rw [← hrun.1, BinlogWrapper.finish, ByteFile.seek]
      split
      · show (w.next F B w.part).binlog.offset ≠ _
        omega
      · show ((w.next F B w.part).binlog.offset - (0 + (w.next F B w.part).part.length : Nat) :
          Int).toNat ≠ _
        omega
    · have hne : w.part.length ≠ w.amount B w.part := by
        intro he
        apply hdrop
        rw [← he, List.drop_length]
      have hBn : B ≤ (w.next F B w.part).part.length := by omega
      simp [readTillEnd, hnext.readPart_full hdrop hBn] at hrun
  · have hsome : 0 < (decodeAll tracked (F.frames (w.block B w.part).part)).length := by
      rw [length_decodeAll hdecode fun _ hf => Framing.isFrame_of_mem_frames hf]
      exact List.length_pos_iff.mpr hframes
    apply Or.inl
    apply List.length_pos_iff.mp
    rcases hb : (afterRecords F (w.block B w.part) []).1 with _ | _
    · simp only [hb] at hrun
      exact hsome.trans_le (readChunk_length hrun)
    · simp only [hb, Except.ok.injEq, Prod.mk.injEq] at hrun
      rwa [← hrun.2]

omit hhead hdecode hBm hB in
theorem BinlogWrapper.Done.ready (h : w.Pending F unread)
    (hd : w.Done F unread [] w') (hv : F.measure (F.rest unread) ≠ .invalid) :
    w'.Ready F w'.part := by
  obtain ⟨ht, hb, -, hfin, hp⟩ := hd
  have hp := hp rfl hv
  have hoff : w'.binlog.offset = w.till - (F.rest unread).length := by simp [hb]
  have hsize : w'.binlog.size = w.binlog.size := by rw [hb, ByteFile.size, ByteFile.size]
  have hum := h.unread_mod
  have hrm := length_rest_mod hF hum
  have htm := h.till_mod
  have hlen := congrArg List.length (Framing.flatten_frames_append_rest (F := F) unread)
  rw [List.length_append] at hlen
  have hul := h.length_unread
  have hol := h.offset_le
  constructor
  case finished =>
    rw [← Bool.not_eq_true]
    exact fun hf => hv (hfin hf)
  case stuck =>
    rw [hp]
    exact Framing.stuck_rest _
  case valid => rwa [hp]
  case part_mod => rwa [hp]
  case offset_mod => omega
  case till_mod => omega
  case offset_le => omega
  case till_le =>
    have := h.till_le
    omega
  case unread_eq =>
    have hcut : ((F.frames unread).flatten ++ F.rest unread).drop (F.frames unread).flatten.length =
        F.rest unread := List.drop_left' rfl
    rw [Framing.flatten_frames_append_rest] at hcut
    have hsum : w.till - (F.rest unread).length =
        w.binlog.offset + (F.frames unread).flatten.length := by omega
    rw [hoff, ht, hp, hsum, ← List.drop_drop, hb]
    show ((w.binlog.data.take w.till).drop w.binlog.offset).drop _ = _
    rw [h.unread_eq, hcut]

/-- A torn record behind records with keys spoils the compactor's reading when a
chunk takes them all. -/
theorem readChunks_torn (h : w.Pending F unread) (hpart : w.part = []) (hfit : Fits F B unread)
    (hfailed : w.failed = false) (hrest : F.rest unread ≠ [])
    (hv : F.measure (F.rest unread) ≠ .invalid)
    (hkeys : (decodeAll tracked (F.frames unread)).flatMap storedKeys ≠ [])
    (hchunk : ((decodeAll tracked (F.frames unread)).flatMap storedKeys).length < chunk)
    {fuel : Nat}
    (hrun : readChunks F B tracked chunk fuel w [] = .ok (w', decodeAll tracked (F.frames unread))) :
    w'.binlog.offset ≠ w.till - (F.rest unread).length := by
  have hbytes : w.part ++ unread = unread := by rw [hpart, List.nil_append]
  cases fuel with
  | zero => cases hrun
  | succ fuel =>
  rw [readChunks] at hrun
  cases hread : readChunk F B tracked chunk fuel w [] with
  | error stop => simp [hread] at hrun
  | ok q =>
  obtain ⟨w₁, records₁⟩ := q
  obtain ⟨w₂, records₂, hread₂, hcase⟩ := readChunk_cases hF hhead hdecode hBm hB h
    (hbytes.symm ▸ hfit) hfailed chunk [] (fuel + (unread.length + 2)) (by omega)
  rw [readChunk_mono hread, Except.ok.injEq, Prod.mk.injEq] at hread₂
  obtain ⟨rfl, rfl⟩ := hread₂
  rw [hbytes, List.nil_append] at hcase
  rcases hcase with ⟨hdone, rfl⟩ | ⟨unread', fs, hfull⟩
  · have hf₁ : w₁.failed = false := by simp [hdone.failed, hfailed, hv]
    have hstop : ¬(w₁.failed = true ∨
        (decodeAll tracked (F.frames unread)).flatMap storedKeys = []) := by
      simp only [hf₁, hkeys]
      simp
    simp only [hread, if_neg hstop, List.nil_append] at hrun
    have hready := hdone.ready hF h hv
    have hp₁ : w₁.part ≠ [] := by rwa [hdone.part rfl hv]
    cases fuel with
    | zero => cases hrun
    | succ fuel =>
    rw [readChunks] at hrun
    cases hread₂ : readChunk F B tracked chunk fuel w₁ [] with
    | error stop => simp [hread₂] at hrun
    | ok q =>
    obtain ⟨w₂, records₂⟩ := q
    have htorn := readChunk_torn hF hhead hdecode hBm hready hp₁ (by omega) hread₂
    simp only [hread₂] at hrun
    by_cases hstop₂ : w₂.failed = true ∨ records₂.flatMap storedKeys = []
    · rw [if_pos hstop₂, Except.ok.injEq, Prod.mk.injEq] at hrun
      have hnil : records₂ = [] := by simpa using hrun.2
      rcases htorn with hne | hne
      · exact absurd hnil hne
      · rw [← hrun.1]
        simpa [hdone.binlog] using hne
    · rw [if_neg hstop₂] at hrun
      have hlen := readChunks_length hrun
      rw [List.length_append] at hlen
      have hnil : records₂ = [] := List.length_eq_zero_iff.mp (by omega)
      simp [hnil] at hstop₂
  · exfalso
    have hk := hfull.full
    have hfr := hfull.frames
    rw [hbytes] at hfr
    rw [hfull.records, List.nil_append] at hk
    rw [hfr, decodeAll_append, List.flatMap_append, List.length_append] at hchunk
    omega

end Chunk

end TelegramClient.Cache
