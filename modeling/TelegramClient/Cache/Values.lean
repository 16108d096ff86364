import Mathlib
import TelegramClient.Cache.Operations

/-! The files of the values: what has been written under a place is read from it. -/

namespace TelegramClient.Cache

open Program

variable {env : Environment} {s t : DatabaseObject} {key : Key}

/-! ### Padding -/

def padded (bytes random : List UInt8) : List UInt8 :=
  bytes ++ if bytes.length % kBlockSize = 0 then [] else random.drop (bytes.length % kBlockSize)

/-- Whole blocks and a rest that is shorter than a block. -/
theorem exists_blocks (bytes : List UInt8) : ∃ whole tail, bytes = whole ++ tail ∧
    whole.length % kBlockSize = 0 ∧ bytes.length % kBlockSize = tail.length ∧
    bytes.length - tail.length = whole.length := by
  refine ⟨bytes.take (bytes.length - bytes.length % kBlockSize),
    bytes.drop (bytes.length - bytes.length % kBlockSize), (List.take_append_drop _ _).symm, ?_, ?_, ?_⟩
  all_goals
    simp only [List.length_take, List.length_drop, kBlockSize]
    omega

theorem writePadded_empty (back : ByteFile → List UInt8 → Run ByteFile) (bytes random : List UInt8)
    (hrandom : random.length = kBlockSize) :
    ∃ offset, writePadded (fun f bytes => Except.map (true, ·) (ByteFile.write f bytes)) back {} bytes
      random = .ok (true, { data := padded bytes random, offset }) := by
  obtain ⟨whole, tail, rfl, hwhole, hpart, hgood⟩ := exists_blocks bytes
  have hlt : tail.length < kBlockSize := by
    rw [← hpart]
    exact Nat.mod_lt _ (by decide)
  have hfirst : (if whole.length = 0 then Except.ok (true, ({} : ByteFile)) else
      Except.map (true, ·) (ByteFile.write {} whole)) =
      .ok (true, { data := whole, offset := whole.length }) := by
    split
    · next hzero =>
      obtain rfl := List.eq_nil_of_length_eq_zero hzero
      rfl
    · rw [ByteFile.write, if_neg (by simp [hwhole])]
      simp [Except.map]
  rw [writePadded, hpart, hgood, List.take_left, List.drop_left, padded, hpart]
  simp only [hfirst]
  by_cases htail : tail.length = 0
  · rw [if_pos htail, if_pos htail]
    obtain rfl := List.eq_nil_of_length_eq_zero htail
    exact ⟨whole.length, by simp⟩
  · rw [if_neg htail, if_neg htail, ByteFile.write, if_neg]
    · exact ⟨whole.length + (tail.length + (random.length - tail.length)), by simp [Except.map]⟩
    · have hblock : tail.length + (kBlockSize - tail.length) = kBlockSize := by omega
      simp [hrandom, hwhole, hblock]

theorem readPadded_padded (bytes random : List UInt8) (hrandom : random.length = kBlockSize) :
    ∃ f, readPadded ByteFile.read { data := padded bytes random } bytes.length = .ok (bytes, f) := by
  obtain ⟨whole, tail, rfl, hwhole, hpart, hgood⟩ := exists_blocks bytes
  have hlt : tail.length < kBlockSize := by
    rw [← hpart]
    exact Nat.mod_lt _ (by decide)
  rw [readPadded, hpart, hgood, padded, hpart]
  have hfirst : ∀ rest : List UInt8, (if whole.length = 0 then
      Except.ok ([], ({ data := whole ++ rest } : ByteFile)) else
      ByteFile.read { data := whole ++ rest } whole.length) =
      .ok (whole, { data := whole ++ rest, offset := whole.length }) := by
    intro rest
    split
    · next hzero =>
      obtain rfl := List.eq_nil_of_length_eq_zero hzero
      rfl
    · rw [ByteFile.read_eq hwhole rfl (by simp)]
      simp
  rw [List.append_assoc]
  simp only [hfirst]
  by_cases htail : tail.length = 0
  · obtain rfl := List.eq_nil_of_length_eq_zero htail
    exact ⟨⟨whole, whole.length⟩, by simp⟩
  · have hblock : tail.length + (kBlockSize - tail.length) = kBlockSize := by omega
    have hread : ∀ last : List UInt8, last.length = kBlockSize →
        ByteFile.read ⟨whole ++ last, whole.length⟩ kBlockSize =
          .ok (last, ⟨whole ++ last, whole.length + kBlockSize⟩) := by
      intro last hlast
      rw [ByteFile.read_eq (by decide) hwhole (by simp [hlast])]
      simp [← hlast]
    rw [if_neg (by simp [htail]), if_neg htail, hread _ (by simp [hrandom, hblock])]
    cases tail with
    | nil => exact absurd rfl htail
    | cons b tail =>
      simp only [List.cons_append]
      rw [if_neg]
      · exact ⟨⟨whole ++ b :: (tail ++ random.drop (b :: tail).length), whole.length + kBlockSize⟩,
          by simp⟩
      · have hlength := hblock
        rw [List.length_cons] at hlength
        simp only [List.length_cons, List.length_append, List.length_drop, hrandom]
        omega

/-! ### Reading -/

/-- What is read from a place, nothing when it is not all there. -/
def valueIn (files : PlaceId → Option (List UInt8)) (place : PlaceId) (size : Nat)
    (result : OpenResult) : List UInt8 :=
  match files place, result with
  | some data, .success =>
    match readPadded ByteFile.read { data } size with
    | .ok (bytes, _) => if bytes.length = size then bytes else []
    | .error _ => []
  | _, _ => []

theorem readValueData_ends (place : PlaceId) (size : Nat) :
    Ends (fun bytes t => t = { s with asked := s.asked + 1 } ∧
      bytes = valueIn s.files place size (env.opened s.asked)) Any
      (readValueData env place size s) := by
  simp only [readValueData, ends_bind, ends_ask, ends_get, valueIn]
  cases s.files place with
  | none => cases env.opened s.asked <;> simp [Any]
  | some data =>
    cases env.opened s.asked with
    | success =>
      simp only [ends_bind, ends_lift]
      exact ⟨fun p hp => ⟨rfl, by rw [hp]⟩, fun _ _ => trivial⟩
    | failed => simp
    | lockFailed => trivial
    | wrongKey => simp

theorem valueIn_padded {files : PlaceId → Option (List UInt8)} {place : PlaceId}
    {bytes : List UInt8} (random : List UInt8) (hrandom : random.length = kBlockSize)
    (hfile : files place = some (padded bytes random)) :
    valueIn files place bytes.length .success = bytes := by
  obtain ⟨f, hread⟩ := readPadded_padded bytes random hrandom
  simp [valueIn, hfile, hread]

theorem writeValueData_ends (place : PlaceId) (bytes : List UInt8) :
    Ends (fun good t => t.toIndex = s.toIndex ∧ t.stale = s.stale ∧ t.binlog = s.binlog ∧
      (good = true ↔ env.written (s.asked + 1) = none) ∧
      (good = true → valueIn t.files place bytes.length .success = bytes)) Any
      (writeValueData env place bytes s) := by
  obtain ⟨offset, hwrite⟩ := writePadded_empty (fun f _ => .ok f) bytes (env.padding s.asked).toList
    (by simp [kBlockSize])
  simp only [writeValueData, ends_bind, ends_ask, ends_lift, hwrite]
  refine ⟨fun p hp => ?_, fun _ _ => trivial⟩
  cases hp
  simp only [ends_modify, ends_pure]
  refine ⟨trivial, trivial, trivial, by simp, fun hgood => ?_⟩
  rw [Option.isNone_iff_eq_none] at hgood
  refine valueIn_padded (env.padding s.asked).toList (by simp [kBlockSize]) ?_
  simp [hgood]

end TelegramClient.Cache
