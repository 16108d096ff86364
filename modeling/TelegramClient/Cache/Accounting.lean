import Mathlib
import TelegramClient.Cache.Index

/-! The statistics of the entries agree with the entries: no counter falls below
zero and no check of the counters fails. -/

namespace TelegramClient.Cache

open Std.ExtTreeMap

theorem subtract_eq {a b c : Nat} (h : a = c + b) : subtract a b = .ok c := by
  rw [subtract, if_neg (by omega)]
  congr 1
  omega

def ofTag (tag : UInt8) (weight : Entry → Nat) (e : Entry) : Nat :=
  if e.tag = tag then weight e else 0

/-- The entries of a tag, counted. -/
def taggedSummary (map : Std.ExtTreeMap Key Entry) (tag : UInt8) : TaggedSummary where
  count := sumValues (ofTag tag fun _ => 1) map
  totalSize := sumValues (ofTag tag Entry.size) map

namespace Index

/-- A tag without an entry counts as zero whether the statistics have it or not. -/
structure Accounted (idx : Index) : Prop where
  size_ne : ∀ (key : Key) (entry : Entry), idx.map[key]? = some entry → entry.size ≠ 0
  totalSize : idx.totalSize = sumValues Entry.size idx.map
  tagged : ∀ tag ≠ 0, idx.taggedStats.getD tag {} = taggedSummary idx.map tag
  minimal : idx.minimalEntryTime ≠ 0 → idx.entriesWithMinimalTimeCount ≠ 0

theorem accounted_empty (time : EstimatedTimePoint) : ({ time } : Index).Accounted where
  size_ne key entry h := by simp at h
  totalSize := by simp
  tagged tag htag := by simp [taggedSummary]
  minimal h := by simp at h

end Index

/-! ### The tags -/

theorem TaggedSummary.change_eq {s t : TaggedSummary} {was now : Nat}
    (hcount : (s.count + if now ≠ 0 then 1 else 0) = t.count + if was ≠ 0 then 1 else 0)
    (hsize : s.totalSize + now = t.totalSize + was) : s.change was now = .ok t := by
  rw [change, subtract_eq hcount, subtract_eq hsize]
  rfl

/-- How a change of an entry changes the summary of its tag. -/
def TaggedSummary.Changed (s t : TaggedSummary) (was now : Nat) : Prop :=
  ((s.count + if now ≠ 0 then 1 else 0) = t.count + if was ≠ 0 then 1 else 0) ∧
    s.totalSize + now = t.totalSize + was

theorem TaggedSummary.Changed.of_zero {s t : TaggedSummary} (h : s.Changed t 0 0) : s = t := by
  obtain ⟨hcount, hsize⟩ := h
  cases s
  cases t
  simp_all

theorem changeTag_eq (stats : Std.ExtTreeMap UInt8 TaggedSummary) (tag : UInt8) (was now : Nat)
    (t : TaggedSummary) (h : tag ≠ 0 → (stats.getD tag {}).Changed t was now) :
    ∃ stats', changeTag stats tag was now = .ok stats' ∧
      ∀ tag' ≠ 0, stats'.getD tag' {} = if tag' = tag then t else stats.getD tag' {} := by
  by_cases ht : tag = 0
  · refine ⟨stats, if_pos ht, fun tag' htag' => ?_⟩
    rw [if_neg (by rw [ht]; exact htag')]
  · refine ⟨stats.insert tag t, ?_, fun tag' _ => ?_⟩
    · rw [changeTag, if_neg ht, TaggedSummary.change_eq (h ht).1 (h ht).2]
    · rw [Std.ExtTreeMap.getD_insert]
      simp only [Std.LawfulEqCmp.compare_eq_iff_eq, eq_comm (a := tag)]

/-- The statistics after an entry was replaced, when `target` is what they should
become. -/
theorem Index.updateStats_eq (idx : Index) (was now : Entry) (total : Nat)
    (target : UInt8 → TaggedSummary) (htotal : idx.totalSize + now.size = total + was.size)
    (htag : ∀ tag ≠ 0, (idx.taggedStats.getD tag {}).Changed (target tag) (ofTag tag Entry.size was)
      (ofTag tag Entry.size now)) :
    ∃ stats, idx.updateStats was now =
        .ok { idx with totalSize := total, taggedStats := stats } ∧
      ∀ tag ≠ 0, stats.getD tag {} = target tag := by
  rw [updateStats, subtract_eq htotal]
  by_cases hsame : now.tag = was.tag
  · obtain ⟨stats, heq, hstats⟩ := changeTag_eq idx.taggedStats now.tag was.size now.size
      (target now.tag) (fun ht => by simpa [ofTag, hsame] using htag now.tag ht)
    refine ⟨stats, by simp [hsame] at heq ⊢; rw [heq]; rfl, fun tag ht => ?_⟩
    rw [hstats tag ht]
    split
    · next hnow => rw [hnow]
    · next hnow =>
      apply TaggedSummary.Changed.of_zero
      simpa [ofTag, ← hsame, Ne.symm hnow] using htag tag ht
  · obtain ⟨stats, heq, hstats⟩ := changeTag_eq idx.taggedStats now.tag 0 now.size
      (target now.tag) (fun ht => by simpa [ofTag, Ne.symm hsame] using htag now.tag ht)
    obtain ⟨stats', heq', hstats'⟩ := changeTag_eq stats was.tag was.size 0
      (target was.tag) (fun ht => by
        have h := htag was.tag ht
        rw [hstats was.tag ht, if_neg (Ne.symm hsame)]
        simpa [ofTag, hsame] using h)
    refine ⟨stats', ?_, fun tag ht => ?_⟩
    · simp only [hsame, if_false, heq, bind, Except.bind, heq']
      rfl
    · rw [hstats' tag ht]
      split
      · next hwas => rw [hwas]
      · next hwas =>
        rw [hstats tag ht]
        split
        · next hnow => rw [hnow]
        · next hnow =>
          apply TaggedSummary.Changed.of_zero
          simpa [ofTag, Ne.symm hwas, Ne.symm hnow] using htag tag ht

/-! ### One entry -/

namespace Index

variable {idx : Index} {entry : Entry}

theorem dropMinimal_eq (idx : Index) (h : idx.entriesWithMinimalTimeCount ≠ 0) :
    ∃ time count, idx.dropMinimal = .ok { idx with
        minimalEntryTime := time, entriesWithMinimalTimeCount := count } ∧
      (time ≠ 0 → count ≠ 0) := by
  have hs : subtract idx.entriesWithMinimalTimeCount 1 =
      .ok (idx.entriesWithMinimalTimeCount - 1) := subtract_eq (by omega)
  refine ⟨if idx.entriesWithMinimalTimeCount - 1 = 0 then 0 else idx.minimalEntryTime,
    idx.entriesWithMinimalTimeCount - 1, ?_, fun ht hc => ht (if_pos hc)⟩
  rw [dropMinimal, if_neg h, hs]
  rfl

theorem followMinimal_eq (idx : Index) (h : idx.minimalEntryTime ≠ 0 → idx.entriesWithMinimalTimeCount ≠ 0)
    (already entry : Entry) :
    ∃ time count, idx.followMinimal already entry = .ok { idx with
        minimalEntryTime := time, entriesWithMinimalTimeCount := count } ∧
      (time ≠ 0 → count ≠ 0) := by
  rw [followMinimal]
  split
  · exact ⟨_, _, rfl, fun _ => Nat.one_ne_zero⟩
  split
  · next hcase =>
    have hcount := h hcase.1
    split
    · exact ⟨_, _, rfl, fun _ => Nat.succ_ne_zero _⟩
    split
    · exact dropMinimal_eq idx hcount
    · exact ⟨_, _, rfl, h⟩
  · exact ⟨_, _, rfl, h⟩

theorem share_ofTag (idx : Index) (key : Key) {tag : UInt8} (htag : tag ≠ 0)
    (weight : Entry → Nat) :
    share (ofTag tag weight) idx.map key = ofTag tag weight (idx.map.getD key {}) := by
  rw [share, Std.ExtTreeMap.getD_eq_getD_getElem?]
  cases idx.map[key]? with
  | none => simp [ofTag, Ne.symm htag]
  | some e => rfl

theorem share_size (idx : Index) (key : Key) :
    share Entry.size idx.map key = (idx.map.getD key {}).size := by
  rw [share, Std.ExtTreeMap.getD_eq_getD_getElem?]
  cases idx.map[key]? <;> rfl

theorem changed_of_sums {map map' : Std.ExtTreeMap Key Entry} {was now : Entry} {tag : UInt8}
    (htag : tag ≠ 0) (hwas : was.size = 0 → was.tag = 0) (hnow : now.size = 0 → now.tag = 0)
    (hsum : ∀ weight, sumValues (ofTag tag weight) map' + ofTag tag weight was =
      sumValues (ofTag tag weight) map + ofTag tag weight now) :
    (taggedSummary map tag).Changed (taggedSummary map' tag) (ofTag tag Entry.size was)
      (ofTag tag Entry.size now) := by
  have hone : ∀ e : Entry, (e.size = 0 → e.tag = 0) →
      (if ofTag tag Entry.size e ≠ 0 then 1 else 0) = ofTag tag (fun _ => 1) e := by
    intro e he
    by_cases ht : e.tag = tag
    · have hs : e.size ≠ 0 := fun hs => htag (ht ▸ he hs)
      simp [ofTag, ht, hs]
    · simp [ofTag, ht]
  constructor
  · rw [hone was hwas, hone now hnow]
    exact (hsum _).symm
  · exact (hsum _).symm

/-- The map and the time of the database after a change that keeps the accounts. -/
structure Became (idx : Index) (map : Std.ExtTreeMap Key Entry) (time : EstimatedTimePoint) :
    Prop where
  accounted : idx.Accounted
  map_eq : idx.map = map
  time_eq : idx.time = time

theorem Accounted.getD_tag (h : idx.Accounted) (key : Key)
    (hs : (idx.map.getD key {}).size = 0) : (idx.map.getD key {}).tag = 0 := by
  rw [Std.ExtTreeMap.getD_eq_getD_getElem?] at hs ⊢
  cases hk : idx.map[key]? with
  | none => rfl
  | some e => exact absurd (by simpa [hk] using hs) (h.size_ne key e hk)

theorem Accounted.setMapEntry (h : idx.Accounted) (tracked : Bool) (key : Key) (hs : entry.size ≠ 0) :
    ∃ idx', idx.setMapEntry tracked key entry = .ok idx' ∧
      idx'.Became (idx.map.insert key entry) idx.time := by
  have hsum : ∀ f, _ := fun f => sumValues_insert_add f idx.map key entry
  obtain ⟨stats, hstats, htagged⟩ := updateStats_eq idx (idx.map.getD key {}) entry
    (sumValues Entry.size (idx.map.insert key entry)) (taggedSummary (idx.map.insert key entry))
    (by rw [h.totalSize, ← share_size, hsum])
    (fun tag htag => by
      rw [h.tagged tag htag]
      refine changed_of_sums htag (h.getD_tag key) (fun h => absurd h hs) fun weight => ?_
      rw [← share_ofTag idx key htag, hsum])
  obtain ⟨time, count, hfollow, hmin⟩ := followMinimal_eq
    { idx with
      totalSize := sumValues Entry.size (idx.map.insert key entry)
      taggedStats := stats
      binlogExcessLength := idx.binlogExcessLength +
        if (idx.map.getD key {}).size ≠ 0 then sizeofStore tracked else 0 }
    h.minimal (idx.map.getD key {}) entry
  refine ⟨_, by simp only [Index.setMapEntry, hstats, bind, Except.bind, hfollow]; rfl, ?_⟩
  refine ⟨⟨fun k e hk => ?_, rfl, htagged, hmin⟩, rfl, rfl⟩
  rw [Std.ExtTreeMap.getElem?_insert] at hk
  split at hk
  · cases hk
    exact hs
  · exact h.size_ne k e hk

theorem Accounted.eraseMapEntry (h : idx.Accounted) (key : Key) :
    ∃ idx', idx.eraseMapEntry key = .ok idx' ∧ idx'.Became (idx.map.erase key) idx.time := by
  cases hk : idx.map[key]? with
  | none =>
    refine ⟨idx, by rw [Index.eraseMapEntry, hk], h, ?_, rfl⟩
    rw [Std.ExtTreeMap.erase_of_getElem?_eq_none hk]
  | some e =>
    have hsum : ∀ f, _ := fun f => sumValues_erase_add f idx.map key
    have hget : idx.map.getD key {} = e := by
      rw [Std.ExtTreeMap.getD_eq_getD_getElem?, hk, Option.getD_some]
    obtain ⟨stats, hstats, htagged⟩ := updateStats_eq idx e {}
      (sumValues Entry.size (idx.map.erase key)) (taggedSummary (idx.map.erase key))
      (by rw [h.totalSize, ← hsum, share_size, hget]; rfl)
      (fun tag htag => by
        rw [h.tagged tag htag]
        refine changed_of_sums htag (fun hs => absurd hs (h.size_ne key e hk)) (fun _ => rfl)
          fun weight => ?_
        rw [← hget, ← share_ofTag idx key htag, hsum]
        simp [ofTag, Ne.symm htag])
    have herase : ∀ (k : Key) (e : Entry), (idx.map.erase key)[k]? = some e → e.size ≠ 0 := by
      intro k e hk
      rw [Std.ExtTreeMap.getElem?_erase] at hk
      split at hk
      · cases hk
      · exact h.size_ne k e hk
    simp only [Index.eraseMapEntry, hk, hstats, bind, Except.bind]
    split
    · next hmin =>
      obtain ⟨time, count, hdrop, hmin'⟩ := dropMinimal_eq
        { idx with
          totalSize := sumValues Entry.size (idx.map.erase key), taggedStats := stats }
        (h.minimal hmin.1)
      rw [hdrop]
      exact ⟨_, rfl, ⟨herase, rfl, htagged, hmin'⟩, rfl, rfl⟩
    · exact ⟨_, rfl, ⟨herase, rfl, htagged, h.minimal⟩, rfl, rfl⟩

theorem Accounted.setUseTime (h : idx.Accounted) (key : Key) (useTime : UInt64) :
    (idx.setUseTime key useTime).Accounted where
  size_ne k e hk := by
    rw [Index.setUseTime, Std.ExtTreeMap.getElem?_modify] at hk
    split at hk
    · obtain ⟨e', he', rfl⟩ := Option.map_eq_some_iff.mp hk
      exact h.size_ne key e' he'
    · exact h.size_ne k e hk
  totalSize := by
    have hs := sumValues_modify Entry.size idx.map key (g := Entry.withUseTime useTime) fun _ => rfl
    exact h.totalSize.trans hs.symm
  tagged tag htag := by
    have hs := fun f hf => sumValues_modify f idx.map key (g := Entry.withUseTime useTime) hf
    rw [taggedSummary, Index.setUseTime, hs _ fun _ => rfl, hs _ fun _ => rfl]
    exact h.tagged tag htag
  minimal := h.minimal

theorem Accounted.with_time (h : idx.Accounted) (time : EstimatedTimePoint) (excess : Nat) :
    { idx with time, binlogExcessLength := excess }.Accounted :=
  ⟨h.size_ne, h.totalSize, h.tagged, h.minimal⟩

end Index

end TelegramClient.Cache
