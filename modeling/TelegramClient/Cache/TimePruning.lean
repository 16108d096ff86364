import Mathlib
import TelegramClient.Cache.Operations
import TelegramClient.Cache.SizePruning

/-! What pruning leaves in the map. The minimal time of the entries, which spares the walk over
them, is forgotten when its last holder leaves. -/

namespace TelegramClient.Cache

open Program

variable {env : Environment} {s t : DatabaseObject} {key : Key}

/-! ### Clearing -/

/-- Only entries of the given keys have left, and all of them. -/
structure Cleared (keys : List Key) (s t : DatabaseObject) : Prop where
  map : ∀ (key : Key) (entry : Entry),
    t.map[key]? = some entry ↔ s.map[key]? = some entry ∧ key ∉ keys
  stale : t.stale = s.stale

theorem forM_remove_cleared (keys : List Key) :
    Ends (fun _ t => Cleared keys s t) Any ((keys.forM fun key => discard (remove env key)) s) := by
  induction keys generalizing s with
  | nil => exact ⟨fun key entry => by simp, rfl⟩
  | cons key keys ih =>
    simp only [List.forM, ends_bind, ends_discard]
    refine remove_removed.imp fun _ t ht => ih.imp fun _ u hu => ?_
    refine ⟨fun key' entry => ?_, hu.stale.trans ht.stale⟩
    rw [hu.map, ht.map, Std.ExtTreeMap.getElem?_erase, List.mem_cons, not_or]
    by_cases hkey : key' = key
    · simp [hkey]
    · rw [if_neg fun h => hkey (Std.LawfulEqCmp.eq_of_compare h).symm]
      simp [hkey]

/-- What was to be cleared is gone or still queued. -/
structure Pruned (keys : List Key) (s t : DatabaseObject) : Prop where
  subset : ∀ (key : Key) (entry : Entry), t.map[key]? = some entry → s.map[key]? = some entry
  queued : ∀ (key : Key) (entry : Entry), t.map[key]? = some entry → key ∈ keys → key ∈ t.stale

theorem clearStaleNow_pruned (keys : List Key) :
    Ends (fun _ t => Pruned keys s t) Any (clearStaleNow env keys s) := by
  cases keys with
  | nil => exact ⟨fun _ _ h => h, fun _ _ _ h => absurd h List.not_mem_nil⟩
  | cons front keys =>
    simp only [clearStaleNow, ends_bind, ends_modify]
    refine (forM_remove_cleared (front :: keys)).imp fun _ t ht => ?_
    exact ⟨fun key entry h => ((ht.map key entry).mp h).1,
      fun key entry h hk => absurd hk ((ht.map key entry).mp h).2⟩

theorem clearStaleChunk_pruned : Ends (fun _ t => Pruned s.stale s t) Any (clearStaleChunk env s) := by
  simp only [clearStaleChunk, ends_bind, ends_get]
  split
  · exact ⟨fun _ _ h => h, fun _ _ _ h => h⟩
  · simp only [ends_bind, ends_modify]
    refine (forM_remove_cleared _).imp fun _ t ht => ?_
    refine ⟨fun key entry h => ((ht.map key entry).mp h).1, fun key entry h hk => ?_⟩
    rw [ht.stale]
    exact (List.mem_append.mp (by rwa [List.take_append_drop])).resolve_right
      ((ht.map key entry).mp h).2

/-! ### Pruning -/

theorem mem_collectTimeStale {settings : Settings} {before : UInt64} {idx : Index}
    {entries : List (Key × Entry)} (hmin : idx.minimalEntryTime ≠ 0)
    (hle : idx.minimalEntryTime ≤ before) (hlimit : settings.totalTimeLimit ≠ 0)
    {p : Key × Entry} (hp : p ∈ entries) (hold : p.2.useTime ≤ before) :
    p.1 ∈ (collectTimeStale settings before idx entries).stale := by
  rw [collectTimeStale, if_neg]
  · exact ((foldl_timeStale_visit before _ entries).1 p.1).mpr (.inr ⟨p, hp, rfl, hold⟩)
  · simp [hlimit, hmin, UInt64.not_lt.mpr hle]

/-- What `pruneBeforeTime` returns. -/
def boundOf (env : Environment) (s : DatabaseObject) : UInt64 :=
  match pruneBeforeTime env s with
  | .ok (before, _) => before
  | .error _ => 0

theorem pruneBeforeTime_eq (env : Environment) (s : DatabaseObject) :
    pruneBeforeTime env s = .ok (boundOf env s, { s with asked := s.asked + 1 }) := rfl

theorem pruneBeforeTime_asks {before : UInt64} {s₁ : DatabaseObject}
    (h : pruneBeforeTime env s = .ok (before, s₁)) : s₁ = { s with asked := s.asked + 1 } := by
  cases h
  rfl

theorem collectTimeStale_map (settings : Settings) (before : UInt64) (idx : Index)
    (entries : List (Key × Entry)) :
    (collectTimeStale settings before idx entries).index.map = idx.map := by
  rw [collectTimeStale]
  split
  · rfl
  · exact (foldl_timeStale_visit before _ entries).2.2

/-- The end of pruning, when what is stale has been collected. -/
theorem prune_clears (keys : List Key) (hs : s.stale = []) :
    Ends (fun _ t => Pruned keys s t ∧ (keys = [] → t.map = s.map ∧ t.stale = [])) Any
      ((if keys.length ≤ env.settings.staleRemoveChunk then clearStaleNow env keys
        else do
          modify fun db => { db with stale := keys }
          clearStaleChunk env) s) := by
  cases keys with
  | nil =>
    rw [if_pos (show ([] : List Key).length ≤ _ from Nat.zero_le _)]
    exact ⟨⟨fun _ _ h => h, fun _ _ _ h => absurd h List.not_mem_nil⟩, fun _ => ⟨rfl, hs⟩⟩
  | cons key keys =>
    split
    · exact (clearStaleNow_pruned _).imp fun _ t ht => ⟨ht, fun h => by cases h⟩
    · rw [ends_bind, ends_modify]
      refine clearStaleChunk_pruned.imp fun _ t ht => ⟨⟨ht.subset, ht.queued⟩, fun h => by cases h⟩

theorem prune_spec {before : UInt64} {s₁ : DatabaseObject} (hstale : s.stale = [])
    (hbefore : pruneBeforeTime env s = .ok (before, s₁)) :
    Ends (fun _ t => ∃ entries order, entries.Perm s.map.toList ∧ order.Perm s.map.toList ∧
      let stale := (collectSizeStale env.settings s.totalSize
        (collectTimeStale env.settings before s.toIndex entries) order).toList
      Pruned stale s t ∧ (stale = [] → t.map = s.map ∧ t.stale = [])) Any (prune env s) := by
  have hs₁ := pruneBeforeTime_asks hbefore
  simp only [prune, ends_bind, ends_get, hstale, ne_eq, not_true_eq_false, if_false, hbefore,
    ends_ok, mapEntries, ends_ask, ends_set]
  subst hs₁
  have hmap := collectTimeStale_map env.settings before s.toIndex
    (env.order (s.asked + 1) s.map.toList)
  have horder : (env.order (s.asked + 1 + 1) (collectTimeStale env.settings before s.toIndex
      (env.order (s.asked + 1) s.map.toList)).index.map.toList).Perm s.map.toList :=
    (env.order_perm _ _).trans (by rw [hmap])
  refine Ends.imp (prune_clears _ hstale) fun _ t ht =>
    ⟨_, _, env.order_perm (s.asked + 1) _, horder, ⟨fun key entry h => ?_, ht.1.queued⟩,
      fun h => ⟨(ht.2 h).1.trans hmap, (ht.2 h).2⟩⟩
  rw [← hmap]
  exact ht.1.subset key entry h

/-! ### Histories -/

/-- What the owner of the database and its timers call. -/
inductive Call where
  | «open» (stored : List UInt8) (files : PlaceId → Option (List UInt8))
  | close
  | put (key : Key) (value : TaggedValue)
  | putIfEmpty (key : Key) (value : TaggedValue)
  | copyIfEmpty (source target : Key)
  | moveIfEmpty (source target : Key)
  | get (key : Key)
  | remove (key : Key)
  | clear
  | clearByTag (tag : UInt8)
  | clearStaleDelayed
  | waitForCleaner
  | writeBundles
  | prune

def Call.run (env : Environment) : Call → Db Unit
  | .open stored files => discard (Cache.open env stored files)
  | .close => Cache.close env
  | .put key value => discard (Cache.put env key value)
  | .putIfEmpty key value => discard (Cache.putIfEmpty env key value)
  | .copyIfEmpty source target => discard (Cache.copyIfEmpty env source target)
  | .moveIfEmpty source target => discard (Cache.moveIfEmpty env source target)
  | .get key => discard (Cache.get env key)
  | .remove key => discard (Cache.remove env key)
  | .clear => discard (Cache.clear env)
  | .clearByTag tag => discard (Cache.clearByTag env tag)
  | .clearStaleDelayed => Cache.clearStaleDelayed env
  | .waitForCleaner => Cache.waitForCleaner env
  | .writeBundles => Cache.writeBundles env
  | .prune => Cache.prune env

/-- The state after some calls, from that of a new object. -/
def After (env : Environment) (calls : List Call) (s : DatabaseObject) : Prop :=
  (calls.forM (Call.run env)) {} = .ok ((), s)

/-- No entry is too old unless it waits in the queue to be removed. -/
def TimePruned (before : UInt64) (s : DatabaseObject) : Prop :=
  ∀ (key : Key) (entry : Entry), s.map[key]? = some entry → entry.useTime ≤ before → key ∈ s.stale

/-- The shortcut is not taken while an entry is too old. -/
def NotHidden (before : UInt64) (s : DatabaseObject) : Prop :=
  TimePruned before s ∨ s.stale = [] ∧ s.minimalEntryTime ≠ 0 ∧ s.minimalEntryTime ≤ before

/-! ### Two entries, of which the first is removed or not -/

def outcome : Run (Unit × DatabaseObject) → DatabaseObject
  | .ok (_, s) => s
  | .error _ => {}

theorem ok_outcome {result : Run (Unit × DatabaseObject)} (h : result.isOk = true) :
    result = .ok ((), outcome result) := by
  cases result with
  | error stop => simp [Except.isOk, Except.toBool] at h
  | ok p => rfl

def stateAfter (env : Environment) (calls : List Call) : DatabaseObject :=
  outcome (calls.forM (Call.run env) {})

/-- Everything works and the entries are listed by their keys. -/
def calm (now : Nat → UInt32) : Environment where
  settings := defaultSettings
  checksum bytes := .ofNat bytes.length
  now
  randomPlace n := .ofNat 56 n
  padding _ := .replicate 16 0
  written _ := none
  opened _ := .success
  removed _ := true
  versionWritten _ := true
  order _ entries := entries
  order_perm _ _ := .refl _

def twoPuts : List Call :=
  [.open [] fun _ => none, .put ⟨0, 1⟩ { bytes := [1] }, .put ⟨0, 2⟩ { bytes := [2] }]

def laterOn (n : Nat) : UInt32 := if n < 10 then 100 else if n < 16 then 2000 else 2680500

theorem prune_timePruned_iff (env : Environment) (calls : List Call) (s t s₁ : DatabaseObject)
    (before : UInt64) (hlimit : env.settings.totalTimeLimit ≠ 0) (hs : After env calls s)
    (hbefore : pruneBeforeTime env s = .ok (before, s₁)) (hprune : prune env s = .ok ((), t)) :
    (NotHidden before s → TimePruned before t) ∧
      (env.settings.totalSizeLimit ≤ 0 → TimePruned before t → NotHidden before s) := by
  by_cases hstale : s.stale = []
  · have hspec := prune_spec hstale hbefore
    rw [hprune, ends_ok] at hspec
    obtain ⟨entries, order, hentries, horder, hpruned, hnone⟩ := hspec
    constructor
    · rintro (hnot | ⟨-, hmin, hle⟩) key entry hkey hold
      · have := hnot key entry (hpruned.subset key entry hkey) hold
        simp [hstale] at this
      · refine hpruned.queued key entry hkey ?_
        rw [Std.ExtTreeSet.mem_toList, mem_collectSizeStale]
        have hin : (key, entry) ∈ entries := (mem_order hentries).mp (hpruned.subset key entry hkey)
        exact .inl (mem_collectTimeStale hmin hle hlimit hin hold)
    · intro hsize htime
      by_contra hhidden
      simp only [NotHidden, not_or, not_and] at hhidden
      have hskip : collectTimeStale env.settings before s.toIndex entries = { index := s.toIndex } := by
        refine if_pos (.inr ?_)
        by_cases hmin : s.minimalEntryTime = 0
        · exact .inl hmin
        · exact .inr (UInt64.not_le.mp (hhidden.2 hstale hmin))
      have hsame := hnone (Std.ExtTreeSet.toList_eq_nil_iff.mpr (by
        rw [hskip, collectSizeStale]
        simp [not_lt.mpr hsize]))
      exact hhidden.1 fun key entry hkey hold => by
        rw [hstale, ← hsame.2]
        exact htime key entry (by rwa [hsame.1]) hold
  · have hsame : t = s := by
      have hreturn : prune env s = .ok ((), s) := by
        rw [prune]
        exact congrFun (if_pos hstale) s
      rw [hreturn] at hprune
      cases hprune
      rfl
    subst hsame
    exact ⟨fun h => h.resolve_right fun h => hstale h.1, fun _ h => .inl h⟩

/-- The entry that was removed had been the only one of its time. -/
theorem entry_hidden_by_removal : ∃ calls s before s₁ t, After (calm laterOn) calls s ∧
    pruneBeforeTime (calm laterOn) s = .ok (before, s₁) ∧ prune (calm laterOn) s = .ok ((), t) ∧
    ¬TimePruned before t := by
  let s := stateAfter (calm laterOn) (twoPuts ++ [.remove ⟨0, 1⟩])
  let t := outcome (prune (calm laterOn) s)
  refine ⟨_, s, _, _, t, ok_outcome (by decide +kernel), pruneBeforeTime_eq _ _,
    ok_outcome (by decide +kernel), fun hpruned => ?_⟩
  obtain ⟨entry, hentry, hold⟩ := (Option.any_eq_true
    (fun e : Entry => decide (e.useTime ≤ boundOf (calm laterOn) s)) t.map[(⟨0, 2⟩ : Key)]?).mp
    (by decide +kernel)
  have hqueued := hpruned ⟨0, 2⟩ entry hentry (of_decide_eq_true hold)
  have hnone : t.stale = [] := List.isEmpty_iff.mp (by decide +kernel)
  rw [hnone] at hqueued
  cases hqueued

theorem prune_timePruned_iff_twoPuts :
    TimePruned (boundOf (calm laterOn) (stateAfter (calm laterOn) twoPuts))
      (outcome (prune (calm laterOn) (stateAfter (calm laterOn) twoPuts))) :=
  (prune_timePruned_iff (calm laterOn) twoPuts (stateAfter (calm laterOn) twoPuts) _ _ _
    (by decide) (ok_outcome (by decide +kernel)) (pruneBeforeTime_eq _ _)
    (ok_outcome (by decide +kernel))).1 (.inr (by decide +kernel))

end TelegramClient.Cache
