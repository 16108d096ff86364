import Mathlib
import TelegramClient.Cache.Programs

/-! The statistics of the entries agree with the map after any calls of the owner of the database,
whatever the binlog holds that is opened. -/

namespace TelegramClient.Cache

open Program Std.ExtTreeMap

variable {env : Environment} {s t : DatabaseObject} {idx idx' : Index}

/-! ### Changes of the index -/

theorem Index.Accounted.same (h : idx.Accounted) (hsame : SameEntries idx idx') :
    idx'.Accounted where
  size_ne := by
    rw [hsame.map]
    exact h.size_ne
  totalSize := by rw [hsame.totalSize, hsame.map, h.totalSize]
  tagged := by
    rw [hsame.taggedStats, hsame.map]
    exact h.tagged
  minimal := by
    rw [hsame.minimalEntryTime, hsame.count]
    exact h.minimal

theorem accounted_rules (settings : Settings) :
    IndexRules settings Index.Accounted (fun _ _ => True) (· ≠ .underflow) where
  stop _ hstop := hstop
  same _ _ hsame hidx := ⟨hidx.same hsame, trivial⟩
  store idx key entry hidx hsize := by
    obtain ⟨idx', heq, hbecame⟩ := hidx.setMapEntry settings.trackEstimatedTime key hsize
    rw [heq]
    exact ⟨hbecame.accounted, trivial⟩
  erase idx key hidx := by
    obtain ⟨idx', heq, hbecame⟩ := hidx.eraseMapEntry key
    rw [heq]
    exact ⟨hbecame.accounted, trivial⟩
  access idx key useTime hidx := ⟨hidx.setUseTime key useTime, trivial⟩
  clear _ := ⟨Index.accounted_empty {}, trivial⟩

/-! ### Pruning -/

/-- Only the minimal time is found anew. -/
theorem visit_accounted {stale : TimeStale} (h : stale.index.Accounted) (before : UInt64)
    (p : Key × Entry) : (stale.visit before p).index.Accounted := by
  rw [TimeStale.visit]
  split
  · exact h
  split
  · exact ⟨h.size_ne, h.totalSize, h.tagged, fun _ => Nat.one_ne_zero⟩
  split
  · exact ⟨h.size_ne, h.totalSize, h.tagged, fun _ => Nat.succ_ne_zero _⟩
  · exact h

theorem collectTimeStale_accounted (h : idx.Accounted) (settings : Settings) (before : UInt64)
    (entries : List (Key × Entry)) :
    (collectTimeStale settings before idx entries).index.Accounted := by
  have hvisits : ∀ stale : TimeStale, stale.index.Accounted →
      (entries.foldl (TimeStale.visit before) stale).index.Accounted := by
    induction entries with
    | nil => exact fun _ hstale => hstale
    | cons p entries ih => exact fun _ hstale => ih _ (visit_accounted hstale before p)
  rw [collectTimeStale]
  split
  · exact h
  · exact hvisits _ ⟨h.size_ne, h.totalSize, h.tagged, fun hne => absurd rfl hne⟩

theorem prune_accounted :
    Keeps Index.Accounted (fun _ _ => True) (· ≠ .underflow) (prune env) := by
  have hrules := accounted_rules env.settings
  refine Follows.get.bind fun db => ?_
  split
  · exact .pure _
  refine Follows.bind (pruneBeforeTime_onlyAsks.keeps hrules) fun before => ?_
  refine Follows.bind (mapEntries_onlyAsks.keeps hrules) fun entries => Follows.get_bind fun s hs => ?_
  rw [ends_bind, ends_set]
  have hclear : ∀ stale : List Key, Keeps Index.Accounted (fun _ _ => True) (· ≠ .underflow) (do
      if stale.length ≤ env.settings.staleRemoveChunk then clearStaleNow env stale
      else
        modify fun db => { db with stale := stale }
        clearStaleChunk env) := by
    intro stale
    split
    · exact clearStaleNow_keeps hrules stale
    · refine Follows.bind ((rests_modify ?_).keeps hrules) fun _ => clearStaleChunk_keeps hrules
      exact fun _ => ⟨rfl, rfl, rfl, rfl, rfl⟩
  refine follows_from (Follows.bind (mapEntries_onlyAsks.keeps hrules) fun entries => hclear _)
    (collectTimeStale_accounted hs env.settings before entries) (.single trivial)

/-! ### Runs -/

/-- The entries of a tag are those that a listing of the map has. -/
theorem taggedSummary_eq (map : Std.ExtTreeMap Key Entry) (tag : UInt8) :
    taggedSummary map tag =
      { count := (map.toList.filter fun p => p.2.tag = tag).length
        totalSize := ((map.toList.filter fun p => p.2.tag = tag).map fun p => p.2.size).sum } := by
  have hsum : ∀ (weight : Entry → Nat) (entries : List (Key × Entry)),
      (entries.map fun p => ofTag tag weight p.2).sum =
        ((entries.filter fun p => p.2.tag = tag).map fun p => weight p.2).sum := by
    intro weight entries
    induction entries with
    | nil => rfl
    | cons p entries ih =>
      rw [List.map_cons, List.sum_cons, ih, ofTag]
      by_cases htag : p.2.tag = tag
      · rw [if_pos htag, List.filter_cons_of_pos (by simpa using htag), List.map_cons,
          List.sum_cons]
      · rw [if_neg htag, List.filter_cons_of_neg (by simpa using htag), Nat.zero_add]
  rw [taggedSummary, sumValues, sumValues, hsum, hsum]
  congr 1
  rw [List.map_const', List.sum_replicate, smul_eq_mul, Nat.mul_one]

/-- After any calls the total size is that of the entries in the map, and the statistics of a tag
are those of the entries that have it; no counter falls below zero on the way. -/
theorem statistics_right (env : Environment) (calls : List Call) :
    (calls.forM (Call.run env)) {} ≠ .error .underflow ∧
    ∀ s, After env calls s →
      s.totalSize = (s.map.toList.map fun p => p.2.size).sum ∧
      ∀ tag ≠ 0,
        let tagged := s.map.toList.filter fun p => p.2.tag = tag
        s.taggedStats.getD tag {} =
          { count := tagged.length, totalSize := (tagged.map fun p => p.2.size).sum } := by
  have hends := calls_keeps (accounted_rules env.settings) prune_accounted
    (Index.accounted_empty {}) calls
  constructor
  · intro herror
    rw [herror] at hends
    exact hends rfl
  · intro s hs
    rw [After] at hs
    rw [hs] at hends
    have hidx : s.toIndex.Accounted := hends.1
    exact ⟨hidx.totalSize, fun tag htag => (hidx.tagged tag htag).trans (taggedSummary_eq s.map tag)⟩

end TelegramClient.Cache
