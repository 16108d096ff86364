import Mathlib
import TelegramClient.Cache.RecordBytes

/-! Reading a binlog in blocks. The wrapper keeps the bytes of a record that is
not complete yet and reads the next block behind them; the records found are
handed to one function here, which stands for the handlers of all types. -/

namespace TelegramClient.Cache

structure BinlogWrapper where
  binlog : ByteFile
  till : Nat
  part : List UInt8 := []
  finished : Bool := false
  failed : Bool := false
  deriving DecidableEq, Repr

namespace BinlogWrapper

def create (binlog : ByteFile) (till : Nat) : BinlogWrapper :=
  { binlog, till := if till ≠ 0 then till else binlog.size }

def finish (w : BinlogWrapper) (rollback : Nat) : BinlogWrapper :=
  { w with
    failed := w.failed || decide (0 < rollback)
    binlog := (w.binlog.seek ((w.binlog.offset : Int) - (rollback + w.part.length : Nat))).2 }

def readPart (w : BinlogWrapper) (readBlockSize : Nat) : Run (Bool × BinlogWrapper) :=
  if w.finished then .ok (false, w)
  else
    let left : Int := w.till - w.binlog.offset
    if left = 0 then .ok (false, w.finish 0)
    else
      let amount := min left (readBlockSize - w.part.length)
      if amount ≤ 0 then .error .assertion
      else
        match w.binlog.read amount.toNat with
        | .error stop => .error stop
        | .ok ([], binlog) => .ok (false, { w with binlog }.finish 0)
        | .ok (bytes, binlog) => .ok (true, { w with binlog, part := w.part ++ bytes })

def readRecord (w : BinlogWrapper) (F : Framing UInt8) : List UInt8 × BinlogWrapper :=
  if w.finished then ([], w)
  else
    match F.measure w.part with
    | .unknown => ([], w)
    | .invalid => ([], { w.finish 0 with finished := true, failed := true })
    | .known size =>
      if w.part.length < size then ([], w)
      else (w.part.take size, { w with part := w.part.drop size })

end BinlogWrapper

section Reader

variable {σ : Type} (F : Framing UInt8) (readBlockSize : Nat)
  (handle : σ → List UInt8 → Run (σ × Bool))

/-- The loop of `readTillEnd` over the records of one block. -/
def handleRecords : Nat → BinlogWrapper → σ → Run (Bool × BinlogWrapper × σ)
  | 0, _, _ => .error .running
  | fuel + 1, w, s =>
    match w.readRecord F with
    | ([], w) => .ok (false, w, s)
    | (bytes, w) =>
      match handle s bytes with
      | .error stop => .error stop
      | .ok (s, true) => handleRecords fuel w s
      | .ok (s, false) => .ok (true, w.finish bytes.length, s)

def readTillEnd (w : BinlogWrapper) (s : σ) : Run (Bool × BinlogWrapper × σ) :=
  match w.readPart readBlockSize with
  | .error stop => .error stop
  | .ok (false, w) => .ok (true, w, s)
  | .ok (true, w) => handleRecords F handle (w.part.length + 1) w s

def readBinlogHelper : Nat → BinlogWrapper → σ → Run (BinlogWrapper × σ)
  | 0, _, _ => .error .running
  | fuel + 1, w, s =>
    match readTillEnd F readBlockSize handle w s with
    | .error stop => .error stop
    | .ok (true, w, s) => .ok (w, s)
    | .ok (false, w, s) => readBinlogHelper fuel w s

/-- What the handlers make of a list of records: the state they reach and the
records left over, the first of which was refused. -/
def feed : σ → List (List UInt8) → Run (σ × List (List UInt8))
  | s, [] => .ok (s, [])
  | s, f :: fs =>
    match handle s f with
    | .error stop => .error stop
    | .ok (s, true) => feed s fs
    | .ok (s, false) => .ok (s, f :: fs)

end Reader

variable {σ : Type} {F : Framing UInt8} {B : Nat} {handle : σ → List UInt8 → Run (σ × Bool)}
  {w : BinlogWrapper} {s : σ}

theorem feed_append (s : σ) (fs gs : List (List UInt8)) :
    feed handle s (fs ++ gs) =
      match feed handle s fs with
      | .error stop => .error stop
      | .ok (s, []) => feed handle s gs
      | .ok (s, f :: refused) => .ok (s, f :: refused ++ gs) := by
  induction fs generalizing s with
  | nil => rfl
  | cons f fs ih =>
    cases hh : handle s f with
    | error stop => simp [feed, hh]
    | ok p =>
      obtain ⟨s', good⟩ := p
      cases good with
      | true => simpa [feed, hh] using ih s'
      | false => simp [feed, hh]

/-! ### One block -/

/-- How much the next block takes of the unread bytes. -/
def BinlogWrapper.amount (B : Nat) (w : BinlogWrapper) (unread : List UInt8) : Nat :=
  min unread.length (B - w.part.length)

/-- The wrapper when the next block has been read. -/
def BinlogWrapper.block (B : Nat) (w : BinlogWrapper) (unread : List UInt8) : BinlogWrapper :=
  { w with
    part := w.part ++ unread.take (w.amount B unread)
    binlog := { w.binlog with offset := w.binlog.offset + w.amount B unread } }

namespace BinlogWrapper

@[simp] theorem finish_till (w : BinlogWrapper) (rollback : Nat) :
    (w.finish rollback).till = w.till := rfl

@[simp] theorem finish_part (w : BinlogWrapper) (rollback : Nat) :
    (w.finish rollback).part = w.part := rfl

@[simp] theorem finish_finished (w : BinlogWrapper) (rollback : Nat) :
    (w.finish rollback).finished = w.finished := rfl

@[simp] theorem finish_failed (w : BinlogWrapper) (rollback : Nat) :
    (w.finish rollback).failed = (w.failed || decide (0 < rollback)) := rfl

theorem finish_binlog {w : BinlogWrapper} {rollback : Nat}
    (h : rollback + w.part.length ≤ w.binlog.offset) (ho : w.binlog.offset ≤ w.binlog.size) :
    (w.finish rollback).binlog =
      { w.binlog with offset := w.binlog.offset - (rollback + w.part.length) } := by
  have hle : w.binlog.offset - (rollback + w.part.length) ≤ w.binlog.size := by omega
  have hs := ByteFile.seek_eq hle
  rw [Int.ofNat_sub h] at hs
  rw [finish, hs]

def withPart (w : BinlogWrapper) (part : List UInt8) : BinlogWrapper := { w with part }

@[simp] theorem withPart_till (w : BinlogWrapper) (part : List UInt8) :
    (w.withPart part).till = w.till := rfl

@[simp] theorem withPart_part (w : BinlogWrapper) (part : List UInt8) :
    (w.withPart part).part = part := rfl

@[simp] theorem withPart_finished (w : BinlogWrapper) (part : List UInt8) :
    (w.withPart part).finished = w.finished := rfl

@[simp] theorem withPart_failed (w : BinlogWrapper) (part : List UInt8) :
    (w.withPart part).failed = w.failed := rfl

@[simp] theorem withPart_binlog (w : BinlogWrapper) (part : List UInt8) :
    (w.withPart part).binlog = w.binlog := rfl

end BinlogWrapper

/-- The wrapper after the records of a block were handled. -/
def afterRecords (F : Framing UInt8) (w : BinlogWrapper) :
    List (List UInt8) → Bool × BinlogWrapper
  | f :: fs => (true, (w.withPart (fs.flatten ++ F.rest w.part)).finish f.length)
  | [] =>
    (false,
      if F.measure (F.rest w.part) = .invalid then
        { (w.withPart (F.rest w.part)).finish 0 with finished := true, failed := true }
      else w.withPart (F.rest w.part))

theorem handleRecords_eq (hw : w.finished = false) {fuel : Nat} (hf : w.part.length < fuel) :
    handleRecords F handle fuel w s =
      match feed handle s (F.frames w.part) with
      | .error stop => .error stop
      | .ok (s, refused) =>
        .ok ((afterRecords F w refused).1, (afterRecords F w refused).2, s) := by
  induction fuel generalizing w s with
  | zero => omega
  | succ fuel ih =>
    by_cases hs : F.Stuck w.part
    · obtain ⟨binlog, till, part, finished, failed⟩ := w
      obtain rfl : finished = false := hw
      have hr : F.rest part = part := Framing.rest_of_stuck hs
      rw [Framing.frames_of_stuck hs, handleRecords, BinlogWrapper.readRecord]
      cases hm : F.measure part with
      | unknown => simp [feed, afterRecords, hr, hm, BinlogWrapper.withPart]
      | invalid => simp [feed, afterRecords, hr, hm, BinlogWrapper.withPart]
      | known n =>
        simp [feed, afterRecords, hr, hm, show part.length < n from hs n hm,
          BinlogWrapper.withPart]
    · obtain ⟨n, hm, hn⟩ : ∃ n, F.measure w.part = .known n ∧ n ≤ w.part.length := by
        simpa [Framing.Stuck] using hs
      have hpos := F.header_pos.trans_le (F.header_le _ _ hm)
      have hread : w.readRecord F = (w.part.take n, { w with part := w.part.drop n }) := by
        simp [BinlogWrapper.readRecord, hw, hm, Nat.not_lt.mpr hn]
      obtain ⟨b, bs, hb⟩ : ∃ b bs, w.part.take n = b :: bs := by
        apply List.exists_cons_of_ne_nil
        simp only [ne_eq, List.take_eq_nil_iff]
        rintro (h | h)
        · omega
        · simp [h] at hn
          omega
      have hlen : (b :: bs).length = n := by rw [← hb, List.length_take, Nat.min_eq_left hn]
      rw [Framing.frames_of_known hm hn, handleRecords, hread, hb]
      cases hh : handle s (b :: bs) with
      | error stop => simp [feed, hh]
      | ok p =>
        obtain ⟨s', good⟩ := p
        cases good with
        | true =>
          have hi := ih (w := { w with part := w.part.drop n }) (s := s') hw
            (by simp only [List.length_drop]; omega)
          simp only [feed, hh, hi]
          cases feed handle s' (F.frames (w.part.drop n)) with
          | error stop => rfl
          | ok q =>
            have hrest := Framing.rest_of_known hm hn
            cases hq : q.2 <;> simp [afterRecords, hrest, hq, BinlogWrapper.withPart]
        | false =>
          have hflat := Framing.flatten_frames_append_rest (F := F) (w.part.drop n)
          simp [feed, hh, afterRecords, Framing.rest_of_known hm hn, hflat, hlen,
            BinlogWrapper.withPart]

/-- The wrapper between two blocks: `unread` is what the file still holds before
`till`, and the part kept so far may be the start of a record. -/
structure BinlogWrapper.Ready (F : Framing UInt8) (w : BinlogWrapper)
    (unread : List UInt8) : Prop where
  finished : w.finished = false
  stuck : F.Stuck w.part
  valid : F.measure w.part ≠ .invalid
  part_mod : w.part.length % 16 = 0
  offset_mod : w.binlog.offset % 16 = 0
  till_mod : w.till % 16 = 0
  offset_le : w.binlog.offset ≤ w.till
  till_le : w.till ≤ w.binlog.size
  unread_eq : (w.binlog.data.take w.till).drop w.binlog.offset = unread

/-- The part kept is what the file holds before the offset, so that the reader
can go back to its start. -/
structure BinlogWrapper.Pending (F : Framing UInt8) (w : BinlogWrapper)
    (unread : List UInt8) : Prop extends w.Ready F unread where
  part_le : w.part.length ≤ w.binlog.offset

namespace BinlogWrapper.Ready

variable {unread : List UInt8}

theorem length_unread (h : w.Ready F unread) : unread.length = w.till - w.binlog.offset := by
  have := w.binlog.size_le
  have := h.till_le
  rw [← h.unread_eq, List.length_drop, List.length_take]
  omega

theorem offset_le_size (h : w.Ready F unread) : w.binlog.offset ≤ w.binlog.size :=
  h.offset_le.trans h.till_le

theorem unread_mod (h : w.Ready F unread) : unread.length % 16 = 0 := by
  have := h.offset_mod
  have := h.till_mod
  have := h.length_unread
  omega

theorem readPart_nil (h : w.Ready F []) (readBlockSize : Nat) :
    w.readPart readBlockSize = .ok (false, w.finish 0) := by
  have hl := h.length_unread
  have ho := h.offset_le
  have hleft : (w.till : Int) - w.binlog.offset = 0 := by
    simp only [List.length_nil] at hl
    omega
  rw [readPart, if_neg (by simp [h.finished])]
  simp [hleft]

theorem readPart_full (h : w.Ready F unread) (hu : unread ≠ []) (hB : B ≤ w.part.length) :
    w.readPart B = .error .assertion := by
  have hl := h.length_unread
  have hp := List.length_pos_iff.mpr hu
  have hleft : (w.till : Int) - w.binlog.offset ≠ 0 := by omega
  rw [readPart, if_neg (by simp [h.finished])]
  simp only [hleft, if_false]
  rw [if_pos (by omega)]

theorem readPart_more (h : w.Ready F unread) (hu : unread ≠ []) (hBm : B % 16 = 0)
    (hB : w.part.length < B) : w.readPart B = .ok (true, w.block B unread) := by
  have hl := h.length_unread
  have hp := List.length_pos_iff.mpr hu
  have hum := h.unread_mod
  have hpm := h.part_mod
  have hsize := w.binlog.size_le
  have htill := h.till_le
  have hleft : (w.till : Int) - w.binlog.offset ≠ 0 := by omega
  have hamount : min ((w.till : Int) - w.binlog.offset) ((B : Int) - w.part.length) =
      (w.amount B unread : Nat) := by
    simp only [amount]
    omega
  have hpos : 0 < w.amount B unread := by
    simp only [amount]
    omega
  have hmod : w.amount B unread % kBlockSize = 0 := by
    simp only [amount, kBlockSize]
    omega
  have hle : w.amount B unread ≤ unread.length := Nat.min_le_left _ _
  unfold block
  generalize w.amount B unread = n at hamount hpos hmod hle ⊢
  have hread := ByteFile.read_eq (f := w.binlog) hmod h.offset_mod (by omega)
  have htake : (w.binlog.data.drop w.binlog.offset).take n = unread.take n := by
    rw [← h.unread_eq, List.drop_take, List.take_take, Nat.min_eq_left (by omega)]
  have hne : unread.take n ≠ [] := by
    simp only [ne_eq, List.take_eq_nil_iff, hu, or_false]
    omega
  rw [readPart, if_neg (by simp [h.finished])]
  simp only [hleft, if_false, hamount]
  rw [if_neg (by omega), Int.toNat_natCast, hread, htake]
  cases hc : unread.take n with
  | nil => exact absurd hc hne
  | cons b bs => rfl

end BinlogWrapper.Ready

/-! ### The whole binlog -/

/-- No record outgrows the block the reader has for it, and neither does what
is left behind the last one, unless the reader sees at once that it is no record. -/
def Fits (F : Framing UInt8) (readBlockSize : Nat) (bytes : List UInt8) : Prop :=
  (∀ f ∈ F.frames bytes, f.length ≤ readBlockSize) ∧
    (F.measure (F.rest bytes) ≠ .invalid → (F.rest bytes).length ≤ readBlockSize)

instance (F : Framing UInt8) (readBlockSize : Nat) (bytes : List UInt8) :
    Decidable (Fits F readBlockSize bytes) :=
  inferInstanceAs (Decidable (_ ∧ (_ → _)))

section Whole

variable (hF : ∀ f, F.IsFrame f → f.length % 16 = 0) {unread : List UInt8}

include hF

theorem length_rest_mod {bytes : List UInt8} (h : bytes.length % 16 = 0) :
    (F.rest bytes).length % 16 = 0 := by
  have hflat : ∀ fs : List (List UInt8), (∀ f ∈ fs, F.IsFrame f) → fs.flatten.length % 16 = 0 := by
    intro fs hfs
    induction fs with
    | nil => rfl
    | cons f fs ih =>
      have hf := hF f (hfs f (by simp))
      have hi := ih fun g hg => hfs g (by simp [hg])
      rw [List.flatten_cons, List.length_append]
      omega
  have hfr := hflat (F.frames bytes) fun f hf => Framing.isFrame_of_mem_frames hf
  have hlen := congrArg List.length (Framing.flatten_frames_append_rest (F := F) bytes)
  rw [List.length_append] at hlen
  omega

/-- The wrapper after a block all of whose records were accepted. -/
def BinlogWrapper.next (F : Framing UInt8) (B : Nat) (w : BinlogWrapper) (unread : List UInt8) :
    BinlogWrapper :=
  (w.block B unread).withPart (F.rest (w.block B unread).part)

theorem BinlogWrapper.Ready.next (h : w.Ready F unread) (hBm : B % 16 = 0)
    (hv : F.measure (F.rest (w.block B unread).part) ≠ .invalid) :
    (w.next F B unread).Ready F (unread.drop (w.amount B unread)) := by
  have hl := h.length_unread
  have hum := h.unread_mod
  have hpm := h.part_mod
  have hom := h.offset_mod
  have hol := h.offset_le
  have hmod : w.amount B unread % 16 = 0 := by
    simp only [amount]
    omega
  have hle : w.amount B unread ≤ unread.length := Nat.min_le_left _ _
  constructor
  case finished => exact h.finished
  case stuck => exact Framing.stuck_rest _
  case valid => exact hv
  case part_mod =>
    apply length_rest_mod hF
    simp only [block, List.length_append, List.length_take, Nat.min_eq_left hle]
    omega
  case offset_mod =>
    show (w.binlog.offset + w.amount B unread) % 16 = 0
    omega
  case till_mod => exact h.till_mod
  case offset_le =>
    show w.binlog.offset + w.amount B unread ≤ w.till
    omega
  case till_le => exact h.till_le
  case unread_eq =>
    show (w.binlog.data.take w.till).drop (w.binlog.offset + w.amount B unread) = _
    rw [← List.drop_drop, h.unread_eq]

theorem BinlogWrapper.Pending.next (h : w.Pending F unread) (hBm : B % 16 = 0)
    (hv : F.measure (F.rest (w.block B unread).part) ≠ .invalid) :
    (w.next F B unread).Pending F (unread.drop (w.amount B unread)) := by
  have hpl := h.part_le
  have hle : w.amount B unread ≤ unread.length := Nat.min_le_left _ _
  have hlen := congrArg List.length
    (Framing.flatten_frames_append_rest (F := F) (w.block B unread).part)
  simp only [block, List.length_append, List.length_take, Nat.min_eq_left hle] at hlen
  use h.toReady.next hF hBm hv
  show (F.rest (w.part ++ unread.take (w.amount B unread))).length ≤
    w.binlog.offset + w.amount B unread
  omega

omit hF

theorem readTillEnd_more (h : w.Ready F unread) (hu : unread ≠ []) (hBm : B % 16 = 0)
    (hB : w.part.length < B) :
    readTillEnd F B handle w s =
      match feed handle s (F.frames (w.block B unread).part) with
      | .error stop => .error stop
      | .ok (s, refused) =>
        .ok ((afterRecords F (w.block B unread) refused).1,
          (afterRecords F (w.block B unread) refused).2, s) := by
  rw [readTillEnd, h.readPart_more hu hBm hB]
  exact handleRecords_eq (w := w.block B unread) h.finished (Nat.lt_succ_self _)

theorem readTillEnd_nil (h : w.Ready F []) :
    readTillEnd F B handle w s = .ok (true, w.finish 0, s) := by
  rw [readTillEnd, h.readPart_nil]

/-- The wrapper when the reading is over: back at the first byte that was not
handled. -/
structure BinlogWrapper.Done (F : Framing UInt8) (w : BinlogWrapper) (bytes : List UInt8)
    (refused : List (List UInt8)) (w' : BinlogWrapper) : Prop where
  till : w'.till = w.till
  binlog : w'.binlog = { w.binlog with
    offset := w.till - (refused.flatten.length + (F.rest bytes).length) }
  failed : w'.failed = (w.failed || decide (refused ≠ []) ||
    decide (F.measure (F.rest bytes) = .invalid))
  finished : w'.finished = true → F.measure (F.rest bytes) = .invalid
  part : refused = [] → F.measure (F.rest bytes) ≠ .invalid → w'.part = F.rest bytes

/-- The bytes before the cut between two blocks and those behind it. -/
theorem BinlogWrapper.block_append (w : BinlogWrapper) (B : Nat) (unread : List UInt8) :
    w.part ++ unread = (w.block B unread).part ++ unread.drop (w.amount B unread) := by
  simp [block]

theorem frames_block (F : Framing UInt8) (w : BinlogWrapper) (B : Nat) (unread : List UInt8) :
    F.frames (w.part ++ unread) = F.frames (w.block B unread).part ++
      F.frames ((w.next F B unread).part ++ unread.drop (w.amount B unread)) := by
  rw [w.block_append B, Framing.frames_append]
  rfl

theorem rest_block (F : Framing UInt8) (w : BinlogWrapper) (B : Nat) (unread : List UInt8) :
    F.rest (w.part ++ unread) =
      F.rest ((w.next F B unread).part ++ unread.drop (w.amount B unread)) := by
  rw [w.block_append B, Framing.rest_append]
  rfl

theorem length_block (h : w.Pending F unread) :
    (w.block B unread).binlog.offset ≤ (w.block B unread).binlog.size ∧
      (w.block B unread).part.length ≤ (w.block B unread).binlog.offset ∧
      (w.block B unread).binlog.offset + (unread.drop (w.amount B unread)).length = w.till := by
  have hl := h.length_unread
  have hpl := h.part_le
  have hol := h.offset_le
  have htl := h.till_le
  have hle : w.amount B unread ≤ unread.length := Nat.min_le_left _ _
  have htake : (unread.take (w.amount B unread)).length = w.amount B unread := by
    rw [List.length_take, Nat.min_eq_left hle]
  refine ⟨?_, ?_, ?_⟩
  · show w.binlog.offset + w.amount B unread ≤ w.binlog.size
    omega
  · show (w.part ++ unread.take (w.amount B unread)).length ≤
      w.binlog.offset + w.amount B unread
    rw [List.length_append, htake]
    omega
  · show w.binlog.offset + w.amount B unread + _ = w.till
    rw [List.length_drop]
    omega

theorem afterRecords_refused (h : w.Pending F unread) {accepted fs : List (List UInt8)}
    {f : List UInt8} (hr : accepted ++ f :: fs = F.frames (w.block B unread).part) :
    (afterRecords F (w.block B unread) (f :: fs)).1 = true ∧
      w.Done F (w.part ++ unread)
        (f :: fs ++ F.frames ((w.next F B unread).part ++ unread.drop (w.amount B unread)))
        (afterRecords F (w.block B unread) (f :: fs)).2 := by
  obtain ⟨hos, hpo, htill⟩ := length_block (B := B) h
  have hflat := congrArg List.length
    (Framing.flatten_frames_append_rest (F := F) (w.block B unread).part)
  have hnext := congrArg List.length (Framing.flatten_frames_append_rest (F := F)
    ((w.next F B unread).part ++ unread.drop (w.amount B unread)))
  rw [← hr] at hflat
  simp only [List.flatten_append, List.flatten_cons, List.length_append] at hflat
  have hpart : (w.next F B unread).part = F.rest (w.block B unread).part := rfl
  rw [← rest_block, List.length_append, List.length_append, hpart] at hnext
  have hmem : f ∈ F.frames (w.block B unread).part := hr ▸ by simp
  have hfr := Framing.isFrame_of_mem_frames hmem
  use rfl
  constructor
  case till => rfl
  case binlog =>
    have hb := BinlogWrapper.finish_binlog
      (w := (w.block B unread).withPart (fs.flatten ++ F.rest (w.block B unread).part))
      (show f.length + (fs.flatten ++ F.rest (w.block B unread).part).length ≤
        (w.block B unread).binlog.offset by rw [List.length_append]; omega) hos
    rw [afterRecords, hb]
    simp only [BinlogWrapper.withPart_binlog, BinlogWrapper.withPart_part, List.length_append,
      List.flatten_append, List.flatten_cons, hpart]
    apply congrArg (ByteFile.mk w.binlog.data)
    omega
  case failed => simp [afterRecords, hfr.length_pos]
  case finished =>
    have hf : (w.block B unread).finished = false := h.finished
    simp [afterRecords, hf]
  case part => simp

theorem afterRecords_invalid (h : w.Pending F unread)
    (hv : F.measure (F.rest (w.block B unread).part) = .invalid) :
    F.frames (w.part ++ unread) = F.frames (w.block B unread).part ∧
    F.measure (F.rest (w.part ++ unread)) = .invalid ∧
    (afterRecords F (w.block B unread) []).1 = false ∧
    (afterRecords F (w.block B unread) []).2.finished = true ∧
      w.Done F (w.part ++ unread) [] (afterRecords F (w.block B unread) []).2 := by
  obtain ⟨hos, hpo, htill⟩ := length_block (B := B) h
  obtain ⟨hs, hi⟩ := Framing.stuck_of_invalid hv (unread.drop (w.amount B unread))
  have hrest : F.rest (w.part ++ unread) =
      F.rest (w.block B unread).part ++ unread.drop (w.amount B unread) := by
    rw [rest_block F w B unread]
    exact Framing.rest_of_stuck hs
  have hframes : F.frames (w.part ++ unread) = F.frames (w.block B unread).part := by
    rw [frames_block F w B unread]
    have he : F.frames ((w.next F B unread).part ++ unread.drop (w.amount B unread)) = [] :=
      Framing.frames_of_stuck hs
    rw [he, List.append_nil]
  have hlen := congrArg List.length
    (Framing.flatten_frames_append_rest (F := F) (w.block B unread).part)
  rw [List.length_append] at hlen
  use hframes, by rw [hrest, hi], rfl
  have hafter : (afterRecords F (w.block B unread) []).2 =
      { ((w.block B unread).withPart (F.rest (w.block B unread).part)).finish 0 with
        finished := true, failed := true } := by
    simp [afterRecords, hv]
  rw [hafter]
  use rfl
  constructor
  case till => rfl
  case binlog =>
    show (((w.block B unread).withPart (F.rest (w.block B unread).part)).finish 0).binlog = _
    have hb := BinlogWrapper.finish_binlog
      (w := (w.block B unread).withPart (F.rest (w.block B unread).part))
      (show 0 + (F.rest (w.block B unread).part).length ≤ (w.block B unread).binlog.offset by
        omega) hos
    rw [hb, hrest]
    apply congrArg (ByteFile.mk w.binlog.data)
    simp only [BinlogWrapper.withPart_binlog, BinlogWrapper.withPart_part, List.length_append,
      List.flatten_nil, List.length_nil]
    omega
  case failed => simp [hrest, hi]
  case finished => simp [hrest, hi]
  case part => simp [hrest, hi]

theorem afterRecords_next (hv : F.measure (F.rest (w.block B unread).part) ≠ .invalid) :
    afterRecords F (w.block B unread) [] = (false, w.next F B unread) := by
  simp [afterRecords, hv, BinlogWrapper.next]

end Whole

end TelegramClient.Cache
