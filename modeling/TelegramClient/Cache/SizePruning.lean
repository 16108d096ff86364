import Mathlib
import TelegramClient.Cache.Database
import TelegramClient.Cache.Accounting
import TelegramClient.Lib.Selection

/-! What the two parts of pruning choose: first all entries that are too old, then the oldest of
the others that are enough to keep the total size within its limit. -/

namespace TelegramClient.Cache

open Std.ExtTreeMap

def useTimeOf (p : Key × Entry) : Nat := p.2.useTime.toNat
def sizeOfEntry (p : Key × Entry) : Nat := p.2.size

/-! ### By time -/

theorem foldl_timeStale_visit (before : UInt64) (s : TimeStale) (l : List (Key × Entry)) :
    (∀ key, key ∈ (l.foldl (TimeStale.visit before) s).stale ↔
      key ∈ s.stale ∨ ∃ p ∈ l, p.1 = key ∧ p.2.useTime ≤ before) ∧
    ((l.foldl (TimeStale.visit before) s).staleTotalSize : Int) = s.staleTotalSize +
      Selection.sizes sizeOfEntry (l.filter fun p => p.2.useTime ≤ before) ∧
    (l.foldl (TimeStale.visit before) s).index.map = s.index.map := by
  induction l generalizing s with
  | nil => simp
  | cons p l ih =>
    obtain ⟨hstale, hsize, hmap⟩ := ih (TimeStale.visit before s p)
    rw [List.foldl_cons]
    by_cases hp : p.2.useTime ≤ before
    · have hvisit : TimeStale.visit before s p = { s with
          stale := s.stale.insert p.1, staleTotalSize := s.staleTotalSize + p.2.size } :=
        if_pos hp
      rw [hvisit] at hstale hsize hmap ⊢
      refine ⟨fun key => ?_, ?_, hmap⟩
      · rw [hstale, Std.ExtTreeSet.mem_insert, Std.LawfulEqCmp.compare_eq_iff_eq]
        simp [hp, or_assoc, or_left_comm]
      · rw [hsize, List.filter_cons_of_pos (by simpa using hp), Selection.sizes_cons]
        simp only [sizeOfEntry]
        omega
    · have hkeep : (TimeStale.visit before s p).stale = s.stale ∧
          (TimeStale.visit before s p).staleTotalSize = s.staleTotalSize ∧
          (TimeStale.visit before s p).index.map = s.index.map := by
        rw [TimeStale.visit, if_neg hp]
        split
        · exact ⟨rfl, rfl, rfl⟩
        split <;> exact ⟨rfl, rfl, rfl⟩
      rw [hkeep.1] at hstale
      rw [hkeep.2.1] at hsize
      refine ⟨fun key => ?_, ?_, hmap.trans hkeep.2.2⟩
      · rw [hstale]
        simp [hp]
      · rw [hsize, List.filter_cons_of_neg (by simpa using hp)]

/-- The keys that are collected are those of entries of the map, with their sizes. -/
theorem collectTimeStale_sizes (settings : Settings) (before : UInt64) (idx : Index)
    {entries : List (Key × Entry)} (hnodup : (entries.map Prod.fst).Nodup) :
    ((collectTimeStale settings before idx entries).staleTotalSize : Int) =
      Selection.sizes sizeOfEntry (entries.filter fun p =>
        p.1 ∈ (collectTimeStale settings before idx entries).stale) := by
  rw [collectTimeStale]
  split
  · simp
  · obtain ⟨hstale, hsize, -⟩ := foldl_timeStale_visit before
      { index := { idx with minimalEntryTime := 0, entriesWithMinimalTimeCount := 0 } } entries
    rw [hsize]
    simp only [Nat.cast_zero, zero_add]
    congr 1
    refine List.filter_congr fun p hp => ?_
    simp only [hstale, decide_eq_decide, Std.ExtTreeSet.not_mem_empty, false_or]
    refine ⟨fun hle => ⟨p, hp, rfl, hle⟩, ?_⟩
    rintro ⟨q, hq, hkey, hle⟩
    rwa [← List.inj_on_of_nodup_map hnodup hq hp hkey]

/-! ### By size -/

def byUseTime (a b : Key × Entry) : Prop := b.2.useTime.toInt64 < a.2.useTime.toInt64

instance : DecidableRel byUseTime := fun _ _ => inferInstanceAs (Decidable (_ < _))

theorem dropOldest_eq (removeSize : Int) (p : Key × Entry) (oldest : List (Key × Entry))
    (total : Int) : dropOldest removeSize p.2 oldest total =
      Selection.drop useTimeOf sizeOfEntry removeSize p oldest total := by
  induction oldest generalizing total with
  | nil => rfl
  | cons first oldest ih =>
    rw [dropOldest, Selection.drop, ih]
    exact if_congr Iff.rfl rfl rfl

theorem visitOldest_eq (removeSize : Int) (stale : Std.ExtTreeSet Key)
    (s : List (Key × Entry) × Int) (p : Key × Entry) : visitOldest removeSize stale s p =
      if p.1 ∈ stale then s
      else Selection.visit useTimeOf sizeOfEntry removeSize byUseTime s p := by
  rw [visitOldest, Selection.visit]
  by_cases hstale : p.1 ∈ stale
  · rw [if_pos hstale, if_pos]
    exact .inl hstale
  · rw [if_neg hstale, dropOldest_eq]
    by_cases hadd : s.2 < removeSize ∨ ∃ first ∈ s.1.head?, useTimeOf p < useTimeOf first
    · rw [if_pos hadd, if_neg]
      · rfl
      · simpa [hstale, useTimeOf, UInt64.lt_iff_toNat_lt, or_iff_not_imp_left] using hadd
    · rw [if_neg hadd, if_pos]
      right
      simpa [useTimeOf, UInt64.lt_iff_toNat_lt] using hadd

theorem foldl_visitOldest (removeSize : Int) (stale : Std.ExtTreeSet Key)
    (entries : List (Key × Entry)) : entries.foldl (visitOldest removeSize stale) ([], 0) =
      (entries.filter fun p => p.1 ∉ stale).foldl
        (Selection.visit useTimeOf sizeOfEntry removeSize byUseTime) ([], 0) := by
  rw [List.foldl_filter]
  congr
  funext s p
  rw [visitOldest_eq]
  by_cases hp : p.1 ∈ stale <;> simp [hp]

theorem mem_foldl_insert {stale : Std.ExtTreeSet Key} {oldest : List (Key × Entry)} {key : Key} :
    key ∈ oldest.foldl (fun stale p => stale.insert p.1) stale ↔
      key ∈ stale ∨ ∃ p ∈ oldest, p.1 = key := by
  induction oldest generalizing stale with
  | nil => simp
  | cons p oldest ih =>
    rw [List.foldl_cons, ih, Std.ExtTreeSet.mem_insert, Std.LawfulEqCmp.compare_eq_iff_eq]
    simp [or_assoc, or_left_comm]

section

variable {settings : Settings} {before : UInt64} {idx : Index} {entries order : List (Key × Entry)}

/-- What is to be removed besides the entries that are too old. -/
def removeSizeOf (settings : Settings) (totalSize : Nat) (s : TimeStale) : Int :=
  if 0 < settings.totalSizeLimit then totalSize - s.staleTotalSize - settings.totalSizeLimit else 0

/-- What is chosen of the entries that are left by time. -/
def chosenOf (settings : Settings) (totalSize : Nat) (s : TimeStale)
    (order : List (Key × Entry)) : List (Key × Entry) × Int :=
  (order.filter fun p => p.1 ∉ s.stale).foldl (Selection.visit useTimeOf sizeOfEntry
    (removeSizeOf settings totalSize s) byUseTime) ([], 0)

theorem mem_collectSizeStale {totalSize : Nat} {s : TimeStale} {key : Key} :
    key ∈ collectSizeStale settings totalSize s order ↔
      key ∈ s.stale ∨ 0 < removeSizeOf settings totalSize s ∧
        ∃ p ∈ (chosenOf settings totalSize s order).1, p.1 = key := by
  rw [collectSizeStale]
  change key ∈ (if removeSizeOf settings totalSize s ≤ 0 then _ else _) ↔ _
  split
  · next hle => simp [not_lt.mpr hle]
  · next hlt =>
    rw [chosenOf, ← foldl_visitOldest, mem_foldl_insert]
    simp only [not_le.mp hlt, true_and]
    rfl

theorem nodup_of_perm (h : order.Perm idx.map.toList) : (order.map Prod.fst).Nodup := by
  rw [(h.map _).nodup_iff, Std.ExtTreeMap.map_fst_toList_eq_keys]
  exact Std.ExtTreeMap.nodup_keys

/-- The size of the entries with the given keys. -/
def totalSizeOf (map : Std.ExtTreeMap Key Entry) (keys : Key → Bool) : Nat :=
  ((map.toList.filter fun p => keys p.1).map fun p => p.2.size).sum

theorem totalSizeOf_eq (h : order.Perm idx.map.toList) {keys : Key → Bool}
    {part : List (Key × Entry)} (hnodup : part.Nodup)
    (hpart : ∀ p, p ∈ part ↔ p ∈ order ∧ keys p.1) :
    (totalSizeOf idx.map keys : Int) = Selection.sizes sizeOfEntry part := by
  have hperm : (idx.map.toList.filter fun p => keys p.1).Perm part := by
    refine (List.perm_ext_iff_of_nodup ((nodup_toList idx.map).filter _) hnodup).mpr fun p => ?_
    rw [List.mem_filter, hpart, h.mem_iff]
  rw [← Selection.sizes_perm sizeOfEntry hperm, totalSizeOf, Selection.sizes, Nat.cast_list_sum,
    List.map_map]
  rfl

/-- The keys that pruning by size adds to those that are too old. -/
def sizeStale (settings : Settings) (totalSize : Nat) (s : TimeStale)
    (order : List (Key × Entry)) (key : Key) : Bool :=
  key ∈ collectSizeStale settings totalSize s order ∧ key ∉ s.stale

/-- What is left when the entries that are too old are gone, and the chosen ones of it. -/
structure Chosen (settings : Settings) (idx : Index) (s : TimeStale)
    (order : List (Key × Entry)) : Prop where
  needed : 0 < removeSizeOf settings idx.totalSize s
  subset : ∀ p ∈ (chosenOf settings idx.totalSize s order).1, p ∈ order ∧ p.1 ∉ s.stale
  nodup : (chosenOf settings idx.totalSize s order).1.Nodup
  mem_iff : ∀ p ∈ order, sizeStale settings idx.totalSize s order p.1 ↔
    p ∈ (chosenOf settings idx.totalSize s order).1

theorem chosen_of_parts {s : TimeStale} {left : List (Key × Entry)}
    (horder : order.Perm idx.map.toList) (hneeded : 0 < removeSizeOf settings idx.totalSize s)
    (hparts : Selection.Parts sizeOfEntry (removeSizeOf settings idx.totalSize s)
      (order.filter fun p => p.1 ∉ s.stale) (chosenOf settings idx.totalSize s order) left) :
    Chosen settings idx s order := by
  have hsubset : ∀ p ∈ (chosenOf settings idx.totalSize s order).1,
      p ∈ order ∧ p.1 ∉ s.stale := fun p hp => by
    simpa using hparts.perm.subset (List.mem_append_left _ hp)
  refine ⟨hneeded, hsubset, ?_, fun p hp => ?_⟩
  · have hnodup : (order.filter fun p => p.1 ∉ s.stale).Nodup :=
      ((horder.nodup_iff).mpr (nodup_toList idx.map)).filter _
    exact (List.nodup_append.mp (hparts.perm.nodup_iff.mpr hnodup)).1
  · rw [sizeStale, decide_eq_true_iff, mem_collectSizeStale]
    constructor
    · rintro ⟨hstale | ⟨-, q, hq, hkey⟩, hfresh⟩
      · exact absurd hstale hfresh
      · rwa [← List.inj_on_of_nodup_map (nodup_of_perm horder) (hsubset q hq).1 hp hkey]
    · intro hchosen
      exact ⟨.inr ⟨hneeded, p, hchosen, rfl⟩, (hsubset p hchosen).2⟩

theorem Chosen.totalSizeOf {s : TimeStale} (h : Chosen settings idx s order)
    (horder : order.Perm idx.map.toList) :
    (totalSizeOf idx.map (sizeStale settings idx.totalSize s order) : Int) =
      Selection.sizes sizeOfEntry (chosenOf settings idx.totalSize s order).1 :=
  totalSizeOf_eq horder h.nodup fun p =>
    ⟨fun hp => ⟨(h.subset p hp).1, (h.mem_iff p (h.subset p hp).1).mpr hp⟩,
      fun hp => (h.mem_iff p hp.1).mp hp.2⟩

/-- Everything that is left suffices, as the limit is not negative. -/
theorem removeSizeOf_le (h : idx.Accounted) (hentries : entries.Perm idx.map.toList)
    (horder : order.Perm idx.map.toList) :
    removeSizeOf settings idx.totalSize (collectTimeStale settings before idx entries) ≤
      Selection.sizes sizeOfEntry (order.filter fun p =>
        p.1 ∉ (collectTimeStale settings before idx entries).stale) := by
  have hstale := collectTimeStale_sizes settings before idx (nodup_of_perm hentries)
  have hall : (idx.totalSize : Int) = Selection.sizes sizeOfEntry order := by
    rw [h.totalSize, sumValues, Nat.cast_list_sum, List.map_map, Selection.sizes_perm sizeOfEntry horder]
    rfl
  have hsplit := Selection.sizes_perm sizeOfEntry (List.filter_append_perm
    (fun p => p.1 ∈ (collectTimeStale settings before idx entries).stale) order)
  rw [Selection.sizes_append, Selection.sizes_perm sizeOfEntry ((horder.trans hentries.symm).filter _),
    ← hstale] at hsplit
  have hnonneg := Selection.sizes_nonneg sizeOfEntry (order.filter fun p =>
    p.1 ∉ (collectTimeStale settings before idx entries).stale)
  simp only [decide_not] at hnonneg ⊢
  rw [removeSizeOf]
  split <;> omega

theorem toInt_toInt64 {x : UInt64} (h : x.toNat < 2 ^ 63) : x.toInt64.toInt = x.toNat := by
  change x.toBitVec.toInt = x.toBitVec.toNat
  exact BitVec.toInt_eq_toNat_of_lt (by rw [UInt64.toNat_toBitVec]; omega)

theorem byUseTime_iff {a b : Key × Entry} (ha : a.2.useTime.toNat < 2 ^ 63)
    (hb : b.2.useTime.toNat < 2 ^ 63) : byUseTime a b ↔ useTimeOf b < useTimeOf a := by
  rw [byUseTime, Int64.lt_iff_toInt_lt, toInt_toInt64 ha, toInt_toInt64 hb, Int.ofNat_lt]
  rfl

theorem exists_parts (settings : Settings) (idx : Index) (s : TimeStale)
    (order : List (Key × Entry)) : ∃ left, Selection.Parts sizeOfEntry
      (removeSizeOf settings idx.totalSize s) (order.filter fun p => p.1 ∉ s.stale)
      (chosenOf settings idx.totalSize s order) left :=
  Selection.Parts.empty.foldl_visit useTimeOf byUseTime (order.filter fun p => p.1 ∉ s.stale)

/-- The order of `oldest` is that of signed numbers. -/
def Signed (map : Std.ExtTreeMap Key Entry) : Prop :=
  ∀ (key : Key) (entry : Entry), map[key]? = some entry → entry.useTime.toNat < 2 ^ 63

theorem mem_order (horder : order.Perm idx.map.toList) {key : Key} {entry : Entry} :
    idx.map[key]? = some entry ↔ (key, entry) ∈ order := by
  rw [horder.mem_iff, Std.ExtTreeMap.mem_toList_iff_getElem?_eq_some]

theorem exists_oldest (settings : Settings) (hsigned : Signed idx.map) (s : TimeStale)
    (horder : order.Perm idx.map.toList) : ∃ left,
      Selection.Parts sizeOfEntry (removeSizeOf settings idx.totalSize s)
        (order.filter fun p => p.1 ∉ s.stale) (chosenOf settings idx.totalSize s order) left ∧
      Selection.Oldest useTimeOf sizeOfEntry (removeSizeOf settings idx.totalSize s)
        (chosenOf settings idx.totalSize s order) left := by
  have htime : ∀ p ∈ [] ++ order.filter fun p => p.1 ∉ s.stale, p.2.useTime.toNat < 2 ^ 63 :=
    fun p hp => hsigned p.1 p.2 ((mem_order horder).mpr (List.mem_of_mem_filter hp))
  exact Selection.Oldest.empty.foldl_visit Selection.Parts.empty _ fun p hp q hq =>
    byUseTime_iff (htime p hp) (htime q hq)

theorem sizeStale_of_not_needed {totalSize : Nat} {s : TimeStale}
    (h : ¬0 < removeSizeOf settings totalSize s) (key : Key) :
    sizeStale settings totalSize s order key = false := by
  rw [sizeStale, decide_eq_false_iff_not, mem_collectSizeStale]
  rintro ⟨hstale | ⟨hneeded, -⟩, hfresh⟩
  · exact hfresh hstale
  · exact h hneeded

theorem sizeStale_sufficient (h : idx.Accounted) (hentries : entries.Perm idx.map.toList)
    (horder : order.Perm idx.map.toList) :
    removeSizeOf settings idx.totalSize (collectTimeStale settings before idx entries) ≤
      totalSizeOf idx.map (sizeStale settings idx.totalSize
        (collectTimeStale settings before idx entries) order) := by
  by_cases hneeded :
      0 < removeSizeOf settings idx.totalSize (collectTimeStale settings before idx entries)
  · obtain ⟨left, hparts⟩ := exists_parts settings idx _ order
    rw [(chosen_of_parts horder hneeded hparts).totalSizeOf horder]
    by_cases hleft : left = []
    · rw [hleft] at hparts
      have hperm := hparts.perm
      rw [List.append_nil] at hperm
      rw [Selection.sizes_perm sizeOfEntry hperm]
      exact removeSizeOf_le h hentries horder
    · exact (hparts.enough hleft).trans_eq hparts.total
  · omega

theorem sizeStale_older {s : TimeStale} (hsigned : Signed idx.map)
    (horder : order.Perm idx.map.toList) {key kept : Key} {entry other : Entry}
    (hkey : idx.map[key]? = some entry) (hkept : idx.map[kept]? = some other)
    (hchosen : sizeStale settings idx.totalSize s order key)
    (hout : kept ∉ collectSizeStale settings idx.totalSize s order) :
    entry.useTime ≤ other.useTime := by
  by_cases hneeded : 0 < removeSizeOf settings idx.totalSize s
  · obtain ⟨left, hparts, holdest⟩ := exists_oldest settings hsigned s horder
    rw [mem_collectSizeStale, not_or] at hout
    have hin := ((chosen_of_parts horder hneeded hparts).mem_iff _
      ((mem_order horder).mp hkey)).mp hchosen
    have hall : (kept, other) ∈ (chosenOf settings idx.totalSize s order).1 ++ left :=
      hparts.perm.mem_iff.mpr (by simpa [hout.1] using (mem_order horder).mp hkept)
    rcases List.mem_append.mp hall with hin' | hleft
    · exact absurd ⟨hneeded, _, hin', rfl⟩ hout.2
    · exact UInt64.le_iff_toNat_le.mpr (holdest.older _ hin _ hleft)
  · simp [sizeStale_of_not_needed hneeded] at hchosen

/-- The newest of the chosen that is first in `oldest` cannot be spared. -/
theorem sizeStale_tight {s : TimeStale} (hsigned : Signed idx.map)
    (horder : order.Perm idx.map.toList)
    (hsome : ∃ key, sizeStale settings idx.totalSize s order key = true) :
    ∃ newest entry, idx.map[newest]? = some entry ∧
      sizeStale settings idx.totalSize s order newest ∧
      (∀ key other, idx.map[key]? = some other → sizeStale settings idx.totalSize s order key →
        other.useTime ≤ entry.useTime) ∧
      totalSizeOf idx.map (fun key => sizeStale settings idx.totalSize s order key && key != newest) <
        removeSizeOf settings idx.totalSize s := by
  obtain ⟨some, hsome⟩ := hsome
  by_cases hneeded : 0 < removeSizeOf settings idx.totalSize s
  · obtain ⟨left, hparts, holdest⟩ := exists_oldest settings hsigned s horder
    have hchosen := chosen_of_parts horder hneeded hparts
    have hmem := hchosen.mem_iff
    have hnodup := hchosen.nodup
    have hsubset := hchosen.subset
    have hsorted := holdest.sorted
    have htight := holdest.tight
    rw [hparts.total] at htight
    cases hl : (chosenOf settings idx.totalSize s order).1 with
    | nil =>
      rw [sizeStale, decide_eq_true_iff, mem_collectSizeStale, hl] at hsome
      simp at hsome
    | cons first rest =>
      rw [hl] at hmem hnodup hsubset hsorted htight
      have hfirst := hsubset first List.mem_cons_self
      have hkeys : ∀ p ∈ rest, p.1 ≠ first.1 := fun p hp hkey =>
        (List.nodup_cons.mp hnodup).1 (List.inj_on_of_nodup_map (nodup_of_perm horder)
          (hsubset p (.tail _ hp)).1 hfirst.1 hkey ▸ hp)
      refine ⟨first.1, first.2, (mem_order horder).mpr hfirst.1,
        (hmem first hfirst.1).mpr List.mem_cons_self, fun key other hkey hc => ?_, ?_⟩
      · have hin := (hmem _ ((mem_order horder).mp hkey)).mp hc
        rcases List.mem_cons.mp hin with rfl | hin
        · exact UInt64.le_refl _
        · exact UInt64.le_iff_toNat_le.mpr ((List.pairwise_cons.mp hsorted).1 _ hin)
      · rw [totalSizeOf_eq horder (List.nodup_cons.mp hnodup).2 fun p => ?_]
        · have := htight first rfl
          rw [Selection.sizes_cons] at this
          omega
        · simp only [Bool.and_eq_true, bne_iff_ne]
          constructor
          · intro hp
            have hin := (hsubset p (.tail _ hp)).1
            exact ⟨hin, (hmem p hin).mpr (.tail _ hp), hkeys p hp⟩
          · rintro ⟨hin, hc, hne⟩
            exact ((List.mem_cons.mp ((hmem p hin).mp hc)).resolve_left fun h => hne (h ▸ rfl))
  · simp [sizeStale_of_not_needed hneeded] at hsome

end

/-! ### Equally new entries, and use times that are negative as signed numbers -/

theorem accounted_of_untagged {map : Std.ExtTreeMap Key Entry}
    (h : ∀ p ∈ map.toList, p.2.size ≠ 0 ∧ p.2.tag = 0) :
    ({ map, totalSize := sumValues Entry.size map } : Index).Accounted where
  size_ne key entry hk := (h (key, entry) (Std.ExtTreeMap.mem_toList_iff_getElem?_eq_some.mpr hk)).1
  totalSize := rfl
  tagged tag htag := by
    have hzero : ∀ weight, sumValues (ofTag tag weight) map = 0 := fun weight => by
      refine List.sum_eq_zero fun n hn => ?_
      obtain ⟨p, hp, rfl⟩ := List.mem_map.mp hn
      rw [ofTag, if_neg]
      rw [(h p hp).2]
      exact Ne.symm htag
    simp [taggedSummary, hzero]
  minimal hm := absurd rfl hm

def someEntry (useTime : UInt64) (size : Nat) : Entry := { useTime, size }

/-- Entries under the keys 1 to 4. -/
def fourEntries (a b c d : Entry) : Index :=
  let map : Std.ExtTreeMap Key Entry :=
    (((∅ : Std.ExtTreeMap Key Entry).insert ⟨0, 1⟩ a |>.insert ⟨0, 2⟩ b).insert ⟨0, 3⟩ c).insert ⟨0, 4⟩ d
  { map, totalSize := sumValues Entry.size map }

def defaultSettings : Settings := {}

def limitedTo (totalSizeLimit : Int) (h : (6 : Nat) < totalSizeLimit) : Settings where
  maxDataSize := 6
  totalSizeLimit
  totalSizeLimit_gt := .inr h

def tied : Index :=
  fourEntries (someEntry 5 5) (someEntry 5 1) (someEntry 1 1) (someEntry 9 6)

def farFuture : Index :=
  fourEntries (someEntry (2 ^ 63) 6) (someEntry 5 6) (someEntry 3 6) (someEntry 9 6)

theorem tied_accounted : tied.Accounted := accounted_of_untagged (by decide)

def chosenOfTied (key : Key) : Bool :=
  sizeStale (limitedTo 7 (by decide)) tied.totalSize { index := tied } tied.map.toList key

def chosenOfFarFuture (key : Key) : Bool :=
  sizeStale (limitedTo 12 (by decide)) farFuture.totalSize { index := farFuture }
    farFuture.map.toList key

theorem collectSizeStale_oldest (settings : Settings) (before : UInt64) (idx : Index)
    (entries order : List (Key × Entry)) (h : idx.Accounted)
    (hentries : entries.Perm idx.map.toList) (horder : order.Perm idx.map.toList) :
    let s := collectTimeStale settings before idx entries
    let chosen := sizeStale settings idx.totalSize s order
    removeSizeOf settings idx.totalSize s ≤ totalSizeOf idx.map chosen ∧
    (Signed idx.map →
      (∀ key entry kept other, idx.map[key]? = some entry → idx.map[kept]? = some other →
        chosen key → kept ∉ collectSizeStale settings idx.totalSize s order →
        entry.useTime ≤ other.useTime) ∧
      ((∃ key, chosen key) → ∃ newest entry, idx.map[newest]? = some entry ∧ chosen newest ∧
        (∀ key other, idx.map[key]? = some other → chosen key → other.useTime ≤ entry.useTime) ∧
        totalSizeOf idx.map (fun key => chosen key && key != newest) <
          removeSizeOf settings idx.totalSize s)) :=
  ⟨sizeStale_sufficient h hentries horder, fun hsigned =>
    ⟨fun _ _ _ _ hkey hkept hchosen hout => sizeStale_older hsigned horder hkey hkept hchosen hout,
      sizeStale_tight hsigned horder⟩⟩

/-- Of two newest entries one can be spared; an entry that is older than a chosen one is kept. -/
theorem newest_spared_and_older_kept :
    (chosenOfTied ⟨0, 2⟩ ∧ (∀ p ∈ tied.map.toList, chosenOfTied p.1 → p.2.useTime ≤ 5) ∧
      removeSizeOf (limitedTo 7 (by decide)) tied.totalSize { index := tied } ≤
        totalSizeOf tied.map fun key => chosenOfTied key && key != ⟨0, 2⟩) ∧
    chosenOfFarFuture ⟨0, 1⟩ ∧ ¬chosenOfFarFuture ⟨0, 2⟩ ∧
      farFuture.map[(⟨0, 1⟩ : Key)]? = some (someEntry (2 ^ 63) 6) ∧
      farFuture.map[(⟨0, 2⟩ : Key)]? = some (someEntry 5 6) := by
  decide +kernel

theorem signed_of_toList {map : Std.ExtTreeMap Key Entry}
    (h : ∀ p ∈ map.toList, p.2.useTime.toNat < 2 ^ 63) : Signed map := fun key entry hk =>
  h (key, entry) (Std.ExtTreeMap.mem_toList_iff_getElem?_eq_some.mpr hk)

theorem collectSizeStale_oldest_tied :
    removeSizeOf (limitedTo 7 (by decide)) tied.totalSize { index := tied } ≤
        totalSizeOf tied.map chosenOfTied ∧
      ∃ newest, chosenOfTied newest ∧ (totalSizeOf tied.map fun key => chosenOfTied key && key != newest) <
        removeSizeOf (limitedTo 7 (by decide)) tied.totalSize { index := tied } := by
  obtain ⟨henough, holdest⟩ := collectSizeStale_oldest (limitedTo 7 (by decide)) 0 tied
    tied.map.toList tied.map.toList tied_accounted (.refl _) (.refl _)
  obtain ⟨newest, -, -, hnewest, -, htight⟩ := (holdest (signed_of_toList (by decide))).2
    ⟨⟨0, 2⟩, by decide⟩
  exact ⟨henough, newest, hnewest, htight⟩

end TelegramClient.Cache
