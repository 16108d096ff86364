import Mathlib
import TelegramClient.Cache.Reopening

/-! A crash in the middle of a write leaves the start of a record behind the log. Opening the database
does not take it for a record, and what is written later goes over it. -/

namespace TelegramClient.Cache

open Program

variable {settings : Settings} {env : Environment} {s t u : DatabaseObject} {system : UInt32}
  {rs : List Record} {r : Record} {n : Nat}

/-- The bytes of a record of which only so many were written. -/
def tornRecord (settings : Settings) (r : Record) (n : Nat) : List UInt8 :=
  (r.encode settings.trackEstimatedTime).take n

theorem wholeBlocks_tornRecord (hn : n < (r.encode settings.trackEstimatedTime).length) :
    wholeBlocks (tornRecord settings r n) = tornRecord settings r (n / 16 * 16) := by
  have hlength : (tornRecord settings r n).length = n := by
    rw [tornRecord, List.length_take, Nat.min_eq_left hn.le]
  rw [wholeBlocks, hlength, tornRecord, tornRecord, List.take_take,
    Nat.min_eq_left (Nat.div_mul_le_self n 16)]

/-- The start of a frame tells its length or nothing, and there is less than that. -/
theorem stuck_tornRecord (hr : Readable settings r)
    (hn : n < (r.encode settings.trackEstimatedTime).length) :
    (binlogFraming settings.trackEstimatedTime settings.maxBundledRecords).Stuck
      (wholeBlocks (tornRecord settings r n)) := by
  intro size hsize
  rw [wholeBlocks_tornRecord hn] at hsize ⊢
  have hframe := isFrame_encode hr.wellFormed settings.maxBundledRecords_lt
  have hmeasure := (binlogFraming settings.trackEstimatedTime settings.maxBundledRecords).stable
    (tornRecord settings r (n / 16 * 16))
    ((r.encode settings.trackEstimatedTime).drop (n / 16 * 16)) (by rw [hsize]; exact nofun)
  rw [tornRecord, List.take_append_drop, ← tornRecord, hsize, hframe] at hmeasure
  cases hmeasure
  rw [tornRecord, List.length_take]
  omega

theorem leftFrames_tornRecord (hr : Readable settings r)
    (hn : n < (r.encode settings.trackEstimatedTime).length) :
    leftFrames settings (tornRecord settings r n) = [] :=
  Framing.frames_of_stuck (stuck_tornRecord hr hn)

theorem behind_tornRecord (hr : Readable settings r)
    (hn : n < (r.encode settings.trackEstimatedTime).length) :
    Behind settings (tornRecord settings r n) := by
  have hframes := leftFrames_tornRecord hr hn
  refine ⟨fun q hq => ?_, fun f hf => ?_, fun _ => ?_⟩
  · rw [leftRecords, hframes] at hq
    cases hq
  · rw [leftFrames] at hframes
    rw [hframes] at hf
    cases hf
  · have hshort := hr.short
    rw [Framing.rest_of_stuck (stuck_tornRecord hr hn), wholeBlocks_tornRecord hn, tornRecord,
      List.length_take]
    omega

/-- What is left of a torn record once the log has grown from one length to another. -/
def tornLeft (settings : Settings) (r : Record) (n grown : Nat) : List UInt8 :=
  (tornRecord settings r n).drop grown

/-- The entry of the one complete record. -/
def kept : List Record := [.store { key := ⟨0, 1⟩, size := 1 }]

def recovered : List Call :=
  [.open (logBytes defaultSettings 0 kept ++ tornRecord defaultSettings (.multiRemove [⟨0, 1⟩]) 20)
    fun _ => none, .put ⟨0, 2⟩ { bytes := [2] }]

end TelegramClient.Cache
