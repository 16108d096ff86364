import Mathlib
import TelegramClient.Cache.Programs
import TelegramClient.Cache.BlockIndependence

/-! The binlog tells what the map holds: replayed from its start it gives the entries of the map,
but for the removals and accesses that wait to be written. -/

namespace TelegramClient.Cache

open Program

variable {settings : Settings} {env : Environment} {s t u : DatabaseObject} {α : Type} {m : Db α}
  {key : Key} {pending : Key → Option Entry} {system : UInt32} {rs : List Record} {r : Record}
  {torn : Torn}

/-! ### Logs -/

/-- A record that is read back whole and taken. -/
structure Readable (settings : Settings) (r : Record) : Prop where
  wellFormed : r.WellFormed settings.trackEstimatedTime settings.maxBundledRecords
  accepted : r.Accepted settings
  short : (r.encode settings.trackEstimatedTime).length ≤ settings.readBlockSize

/-- What `CheckSettings` of the reader is there for: a block has room for every record. -/
structure BlocksSuffice (settings : Settings) : Prop where
  whole : settings.readBlockSize % 16 = 0
  store : sizeofStore settings.trackEstimatedTime ≤ settings.readBlockSize
  bundle : sizeofHead + settings.maxBundledRecords * sizeofKey ≤ settings.readBlockSize

/-- The bytes of a binlog with these records and nothing behind them. -/
def logBytes (settings : Settings) (system : UInt32) (rs : List Record) : List UInt8 :=
  encodeHeader settings.trackEstimatedTime system ++ encodeAll settings.trackEstimatedTime rs

/-- What replaying the records leaves under a key. -/
def replayed (settings : Settings) (system : UInt32) (rs : List Record) (key : Key) :
    Option Entry :=
  KeyedLog.changes Entry.withUseTime
    (logChanges settings.trackEstimatedTime system.toUInt64 rs key) none

theorem logBytes_append : logBytes settings system (rs ++ [r]) =
    logBytes settings system rs ++ r.encode settings.trackEstimatedTime := by
  simp [logBytes, encodeAll]

theorem replayed_append : replayed settings system (rs ++ [r]) key =
    KeyedLog.changes Entry.withUseTime
      (r.changes settings.trackEstimatedTime system.toUInt64 key)
      (replayed settings system rs key) := by
  rw [replayed, logChanges, List.flatMap_append, KeyedLog.changes_append, List.flatMap_singleton]
  rfl

theorem replayed_store {record : Store} :
    replayed settings system (rs ++ [.store record]) key =
      if record.key = key then
        some (record.toEntry (record.useTime settings.trackEstimatedTime system.toUInt64))
      else replayed settings system rs key := by
  rw [replayed_append, Record.changes, Store.changes]
  split <;> rfl

theorem replayed_multiRemove {keys : List Key} :
    replayed settings system (rs ++ [.multiRemove keys]) key =
      if key ∈ keys then none else replayed settings system rs key := by
  rw [replayed_append, Record.changes]
  split <;> rfl

theorem replayed_multiAccess {time : EstimatedTimePoint} {keys : List Key} :
    replayed settings system (rs ++ [.multiAccess time keys]) key =
      if key ∈ keys then (replayed settings system rs key).map (Entry.withUseTime time.relative)
      else replayed settings system rs key := by
  rw [replayed_append, Record.changes]
  split <;> rfl

theorem length_encodeHeader (tracked : Bool) (system : UInt32) :
    (encodeHeader tracked system).length = 16 := by
  simp [encodeHeader]

/-- The bytes that lay behind a log when it was opened, and where they lay. -/
structure Torn where
  start : Nat := 0
  bytes : List UInt8 := []

/-- What is left of them behind a log that is so long now. -/
def Torn.left (torn : Torn) (length : Nat) : List UInt8 := torn.bytes.drop (length - torn.start)

/-- The binlog of the database is open, and holds these records and what is left behind them. -/
structure LogOf (settings : Settings) (torn : Torn) (system : UInt32) (rs : List Record)
    (s : DatabaseObject) : Prop where
  isOpen : s.binlogOpen = true
  data : s.binlog.data =
    logBytes settings system rs ++ torn.left (logBytes settings system rs).length
  offset : s.binlog.offset = (logBytes settings system rs).length
  start : torn.start ≤ (logBytes settings system rs).length
  readable : ∀ r ∈ rs, Readable settings r
  untracked : settings.trackEstimatedTime = false →
    s.time.relative = system.toUInt64 ∧ s.accessed = ∅

theorem LogOf.offset_le {torn : Torn} (h : LogOf settings torn system rs s) :
    s.binlog.offset ≤ s.binlog.data.length := by
  rw [h.offset, h.data, List.length_append]
  exact Nat.le_add_right _ _

/-- What a replay gives once the removals that wait are written. -/
def Logged (settings : Settings) (torn : Torn) (pending : Key → Option Entry)
    (s : DatabaseObject) : Prop :=
  ∃ system rs, LogOf settings torn system rs s ∧ ∀ key, pending key =
    if key ∈ s.removing then none else replayed settings system rs key

/-- The entry in the map is the one of the log, but for an access that waits to be written. -/
structure Matches (pending : Key → Option Entry) (s : DatabaseObject) (key : Key) : Prop where
  blurred : s.map[key]?.map (Entry.withUseTime 0) = (pending key).map (Entry.withUseTime 0)
  unaccessed : key ∉ s.accessed → s.map[key]? = pending key

def Consistent (settings : Settings) (torn : Torn) (s : DatabaseObject) : Prop :=
  ∃ pending, Logged settings torn pending s ∧ ∀ key, Matches pending s key

/-- The key is about to be stored: what the log has of it is not to be removed any more, and counts
only if the map has the entry too. -/
def Storable (settings : Settings) (torn : Torn) (key : Key) (s : DatabaseObject) : Prop :=
  ∃ pending, Logged settings torn pending s ∧ key ∉ s.removing ∧
    ∀ k, k ≠ key ∨ s.map[k]? ≠ none → Matches pending s k

/-- Nothing that the log is compared with has changed. -/
structure SameLog (s t : DatabaseObject) : Prop where
  map : t.map = s.map
  time : t.time = s.time
  removing : t.removing = s.removing
  accessed : t.accessed = s.accessed
  binlog : t.binlog = s.binlog
  isOpen : t.binlogOpen = s.binlogOpen

theorem OnlyFiles.sameLog (h : OnlyFiles s t) : SameLog s t := by
  obtain ⟨files, asked, rfl⟩ := h
  exact ⟨rfl, rfl, rfl, rfl, rfl, rfl⟩

theorem LogOf.same (h : LogOf settings torn system rs s) (hsame : SameLog s t) :
    LogOf settings torn system rs t where
  isOpen := hsame.isOpen.trans h.isOpen
  data := by rw [hsame.binlog, h.data]
  offset := by rw [hsame.binlog, h.offset]
  start := h.start
  readable := h.readable
  untracked htracked := by
    rw [hsame.time, hsame.accessed]
    exact h.untracked htracked

theorem Logged.same (h : Logged settings torn pending s) (hsame : SameLog s t) :
    Logged settings torn pending t := by
  obtain ⟨system, rs, hlog, hpending⟩ := h
  refine ⟨system, rs, hlog.same hsame, fun key => ?_⟩
  rw [hsame.removing]
  exact hpending key

theorem Matches.same (h : Matches pending s key) (hsame : SameLog s t) : Matches pending t key where
  blurred := by
    rw [hsame.map]
    exact h.blurred
  unaccessed := by
    rw [hsame.map, hsame.accessed]
    exact h.unaccessed

theorem Consistent.same (h : Consistent settings torn s) (hsame : SameLog s t) :
    Consistent settings torn t := by
  obtain ⟨pending, hlogged, hmatches⟩ := h
  exact ⟨pending, hlogged.same hsame, fun key => (hmatches key).same hsame⟩

theorem Storable.same (h : Storable settings torn key s) (hsame : SameLog s t) :
    Storable settings torn key t := by
  obtain ⟨pending, hlogged, hkey, hmatches⟩ := h
  refine ⟨pending, hlogged.same hsame, by rwa [hsame.removing], fun k hk => ?_⟩
  rw [hsame.map] at hk
  exact (hmatches k hk).same hsame

/-! ### Writing -/

/-- These bytes were written where the binlog is and nothing else was done to it. -/
structure Appended (bytes : List UInt8) (s t : DatabaseObject) : Prop where
  data : t.binlog.data = s.binlog.data.take s.binlog.offset ++ bytes ++
    s.binlog.data.drop (s.binlog.offset + bytes.length)
  offset : t.binlog.offset = s.binlog.offset + bytes.length
  isOpen : t.binlogOpen = s.binlogOpen
  map : t.map = s.map
  time : t.time = s.time
  removing : t.removing = s.removing
  accessed : t.accessed = s.accessed

theorem LogOf.append (h : LogOf settings torn system rs s) (hr : Readable settings r)
    (happended : Appended (r.encode settings.trackEstimatedTime) s t) :
    LogOf settings torn system (rs ++ [r]) t where
  isOpen := happended.isOpen.trans h.isOpen
  data := by
    have hstart := h.start
    rw [happended.data, h.offset, h.data, List.take_left, List.drop_length_add_append,
      logBytes_append, List.length_append, Torn.left, Torn.left, List.drop_drop,
      Nat.sub_add_comm hstart]
  offset := by rw [happended.offset, h.offset, logBytes_append, List.length_append]
  start := by
    rw [logBytes_append, List.length_append]
    exact h.start.trans (Nat.le_add_right _ _)
  readable q hq := by
    rcases List.mem_append.mp hq with hq | hq
    · exact h.readable q hq
    · rw [List.mem_singleton.mp hq]
      exact hr
  untracked htracked := by
    rw [happended.time, happended.accessed]
    exact h.untracked htracked

theorem length_bundle {header : List UInt8} (hheader : header.length = sizeofHead)
    (keys : List Key) (hblocks : BlocksSuffice settings)
    (hkeys : keys.length ≤ settings.maxBundledRecords) :
    (header ++ keys.flatMap encodeKey).length ≤ settings.readBlockSize := by
  have hbundle := hblocks.bundle
  have hmul := Nat.mul_le_mul_right sizeofKey hkeys
  rw [List.length_append, length_flatMap_width length_encodeKey, hheader]
  omega

theorem foldl_setUseTime_getElem? (keys : List Key) (useTime : UInt64) (idx : Index) (key : Key) :
    (keys.foldl (·.setUseTime · useTime) idx).map[key]? =
      if key ∈ keys then idx.map[key]?.map (Entry.withUseTime useTime) else idx.map[key]? := by
  induction keys generalizing idx with
  | nil => rfl
  | cons k keys ih =>
    rw [List.foldl_cons, ih, Index.setUseTime, Std.ExtTreeMap.getElem?_modify]
    by_cases hk : k = key
    · subst hk
      simp only [Std.ReflCmp.compare_self, if_true, List.mem_cons, true_or]
      split
      · rw [Option.map_map]
        rfl
      · rfl
    · simp [hk, Ne.symm hk]

theorem map_withUseTime {a b : Option Entry}
    (h : a.map (Entry.withUseTime 0) = b.map (Entry.withUseTime 0)) (useTime : UInt64) :
    a.map (Entry.withUseTime useTime) = b.map (Entry.withUseTime useTime) := by
  have hagain := congrArg (Option.map (Entry.withUseTime useTime)) h
  rw [Option.map_map, Option.map_map] at hagain
  exact hagain

/-! ### Programs -/

/-- Whatever the program does, the log still tells what the map holds. -/
def Holds (settings : Settings) (torn : Torn) (m : Db α) : Prop :=
  Follows (Consistent settings torn) (fun _ _ => True) Any m

theorem holds_of (hm : ∀ s, Consistent settings torn s → Ends (fun _ t => Consistent settings torn t) Any (m s)) :
    Holds settings torn m :=
  fun s hs => (hm s hs).imp fun _ _ ht => ⟨ht, .single trivial⟩

theorem Holds.ends (hm : Holds settings torn m) (h : Consistent settings torn s) :
    Ends (fun _ t => Consistent settings torn t) Any (m s) :=
  (hm s h).imp fun _ _ ht => ht.1

theorem Asks.holds (hm : Asks m) : Holds settings torn m :=
  fun s hs => (hm.ends s).mono (fun _ _ ht => ⟨hs.same ht.sameLog, .single trivial⟩)
    fun _ _ => trivial

theorem holds_modify {f : DatabaseObject → DatabaseObject} (h : ∀ s, SameLog s (f s)) :
    Holds settings torn (modify f : Db PUnit) :=
  Follows.modify (fun s hs => hs.same (h s)) fun _ _ => trivial

theorem dropMinimal_time {idx idx' : Index} (h : idx.dropMinimal = .ok idx') :
    idx'.time = idx.time := by
  rw [Index.dropMinimal] at h
  split at h
  · cases h
  · obtain ⟨count, -, h⟩ := ok_of_bind h
    cases h
    rfl

theorem updateStats_time {idx idx' : Index} {was now : Entry}
    (h : idx.updateStats was now = .ok idx') : idx'.time = idx.time := by
  rw [Index.updateStats] at h
  obtain ⟨totalSize, -, h⟩ := ok_of_bind h
  split at h
  all_goals
    obtain ⟨stats, -, h⟩ := ok_of_bind h
    cases h
    rfl

theorem eraseMapEntry_time {idx idx' : Index} (h : idx.eraseMapEntry key = .ok idx') :
    idx'.time = idx.time := by
  rw [Index.eraseMapEntry] at h
  split at h
  · cases h
    rfl
  · obtain ⟨idx₁, hstats, h⟩ := ok_of_bind h
    split at h
    · obtain ⟨idx₂, hdrop, h⟩ := ok_of_bind h
      cases h
      exact (dropMinimal_time hdrop).trans (updateStats_time hstats)
    · cases h
      have htime := updateStats_time hstats
      exact htime

/-- An entry that leaves the map while its removal waits, or was just written. -/
theorem erase_consistent {idx : Index} (hlogged : Logged env.settings torn pending s)
    (hnone : pending key = none) (hmatches : ∀ k ≠ key, Matches pending s k)
    (herase : s.toIndex.eraseMapEntry key = .ok idx) :
    Consistent env.settings torn { s with toIndex := idx } := by
  obtain ⟨system, rs, hlog, hpending⟩ := hlogged
  have htime := eraseMapEntry_time herase
  refine ⟨pending, ⟨system, rs, ⟨hlog.isOpen, hlog.data, hlog.offset, hlog.start, hlog.readable, ?_⟩, hpending⟩,
    fun k => ?_⟩
  · intro htracked
    rw [← (hlog.untracked htracked).1]
    exact ⟨congrArg EstimatedTimePoint.relative htime, (hlog.untracked htracked).2⟩
  · have hget : idx.map[k]? = if k = key then none else s.map[k]? := by
      rw [eraseMapEntry_map herase, Std.ExtTreeMap.getElem?_erase]
      simp only [Std.LawfulEqCmp.compare_eq_iff_eq, eq_comm (a := key)]
    by_cases hk : k = key
    · subst hk
      rw [if_pos rfl] at hget
      exact ⟨by rw [hget, hnone], fun _ => hget.trans hnone.symm⟩
    · rw [if_neg hk] at hget
      refine ⟨?_, fun hun => ?_⟩
      · rw [hget]
        exact (hmatches k hk).blurred
      · exact hget.trans ((hmatches k hk).unaccessed hun)

/-- The removal of a key waits. -/
theorem Logged.insert (h : Logged settings torn pending s) (key : Key) :
    Logged settings torn (fun k => if k = key then none else pending k)
      { s with removing := s.removing.insert key } := by
  obtain ⟨system, rs, hlog, hpending⟩ := h
  refine ⟨system, rs, ⟨hlog.isOpen, hlog.data, hlog.offset, hlog.start, hlog.readable, hlog.untracked⟩,
    fun k => ?_⟩
  simp only [Std.ExtTreeSet.mem_insert, Std.LawfulEqCmp.compare_eq_iff_eq, hpending,
    eq_comm (a := key)]
  by_cases hk : k = key
  · rw [if_pos hk, if_pos (Or.inl hk)]
  · simp only [hk, if_false, false_or]

theorem followMinimal_time {idx idx' : Index} {already entry : Entry}
    (h : idx.followMinimal already entry = .ok idx') : idx'.time = idx.time := by
  rw [Index.followMinimal] at h
  split at h
  · cases h
    rfl
  split at h
  · split at h
    · split at h
      · cases h
      · cases h
        rfl
    split at h
    · exact dropMinimal_time h
    · cases h
      rfl
  · cases h
    rfl

theorem setMapEntry_time {idx idx' : Index} {tracked : Bool} {entry : Entry}
    (h : idx.setMapEntry tracked key entry = .ok idx') : idx'.time = idx.time := by
  rw [Index.setMapEntry] at h
  obtain ⟨idx₁, hstats, h⟩ := ok_of_bind h
  obtain ⟨idx₂, hfollow, h⟩ := ok_of_bind h
  cases h
  have htime := updateStats_time hstats
  exact (followMinimal_time hfollow).trans htime

theorem processRecordStore_ok {idx idx' : Index} {record : Store}
    (h : processRecordStore settings idx record = .ok (idx', true)) :
    record.Accepted settings ∧
    idx'.map = idx.map.insert record.key
      (record.toEntry (record.useTime settings.trackEstimatedTime idx.time.relative)) ∧
    (settings.trackEstimatedTime = false → idx'.time = idx.time) := by
  rw [processRecordStore] at h
  split at h
  · cases h
  next hsize =>
  have haccepted : record.Accepted settings :=
    ⟨fun hzero => hsize (.inl hzero), Nat.le_of_not_lt fun hlt => hsize (.inr hlt)⟩
  refine ⟨haccepted, ?_⟩
  cases htracked : settings.trackEstimatedTime with
  | true =>
    rw [htracked, if_pos rfl] at h
    obtain ⟨idx₁, hset, h⟩ := ok_of_bind h
    cases h
    refine ⟨?_, fun hfalse => by cases hfalse⟩
    rw [setMapEntry_map hset, Index.applyTimePoint_map]
    rfl
  | false =>
    rw [htracked, if_neg Bool.false_ne_true] at h
    obtain ⟨idx₁, hset, h⟩ := ok_of_bind h
    cases h
    exact ⟨setMapEntry_map hset, fun _ => setMapEntry_time hset⟩

theorem Storable.consistent (h : Storable settings torn key s) (hkey : s.map[key]? ≠ none) :
    Consistent settings torn s := by
  obtain ⟨pending, hlogged, -, hmatches⟩ := h
  refine ⟨pending, hlogged, fun k => hmatches k ?_⟩
  by_cases hk : k = key
  · exact .inr (hk ▸ hkey)
  · exact .inl hk

/-- A removal that waits is taken back; then the map had nothing under the key. -/
theorem Consistent.forget (h : Consistent settings torn s) (key : Key) :
    Storable settings torn key { s with
      removing := s.removing.erase key, stale := s.stale.filter (· ≠ key) } := by
  obtain ⟨pending, ⟨system, rs, hlog, hpending⟩, hmatches⟩ := h
  have hmem : ∀ k, k ∈ s.removing.erase key ↔ k ≠ key ∧ k ∈ s.removing := by
    intro k
    rw [Std.ExtTreeSet.mem_erase, ne_eq, Std.LawfulEqCmp.compare_eq_iff_eq, eq_comm]
  refine ⟨fun k => if k = key then replayed settings system rs key else pending k,
    ⟨system, rs, ⟨hlog.isOpen, hlog.data, hlog.offset, hlog.start, hlog.readable, hlog.untracked⟩, fun k => ?_⟩,
    fun hkey => ((hmem key).mp hkey).1 rfl, fun k hk => ?_⟩
  · simp only [hmem]
    by_cases hk : k = key
    · subst hk
      simp
    · simp only [hk, if_false, not_false_eq_true, true_and, ne_eq]
      exact hpending k
  · have hsame : (if k = key then replayed settings system rs key else pending k) = pending k := by
      split
      · next heq =>
        subst heq
        have hne : k ∉ s.removing := by
          intro hremoving
          have hblurred := (hmatches k).blurred
          rw [hpending k, if_pos hremoving, Option.map_none, Option.map_eq_none_iff] at hblurred
          exact (hk.resolve_left fun h => h rfl) hblurred
        rw [hpending k, if_neg hne]
      · rfl
    exact ⟨by rw [hsame]; exact (hmatches k).blurred, by rw [hsame]; exact (hmatches k).unaccessed⟩

theorem writingTime_fits : Ends (fun time t => OnlyFiles s t ∧
    (env.settings.trackEstimatedTime = false → time = {})) Any (writingTime env s) := by
  rw [writingTime]
  split
  · exact ⟨.refl s, fun _ => rfl⟩
  next htracked =>
  rw [ends_bind]
  refine countTimePoint_kept.imp ?_
  rintro time t rfl
  simp only [ends_bind, ends_get]
  split
  · trivial
  split
  · exact ⟨⟨_, _, rfl⟩, fun h => absurd h htracked⟩
  · exact ⟨⟨_, _, rfl⟩, fun h => absurd h htracked⟩

theorem collectTimeStale_time (settings : Settings) (before : UInt64) (idx : Index)
    (entries : List (Key × Entry)) :
    (collectTimeStale settings before idx entries).index.time = idx.time := by
  have hvisits : ∀ stale : TimeStale,
      (entries.foldl (TimeStale.visit before) stale).index.time = stale.index.time := by
    induction entries with
    | nil => exact fun _ => rfl
    | cons p entries ih =>
      intro stale
      rw [List.foldl_cons, ih, TimeStale.visit]
      split_ifs <;> rfl
  rw [collectTimeStale]
  split
  · rfl
  · exact hvisits _

section
variable (hwritten : ∀ n, env.written n = none)
include hwritten

theorem writeBinlog_appends (hopen : s.binlogOpen = true) (bytes : List UInt8) :
    Ends (fun good t => good = true ∧ Appended bytes s t) Any (writeBinlog env bytes s) := by
  simp only [writeBinlog, ends_bind, ends_ask, ends_get]
  rw [if_neg (by simp [hopen]), hwritten]
  simp only [ends_bind, ends_lift]
  refine ⟨fun binlog hbinlog => ?_, fun _ _ => trivial⟩
  rw [ByteFile.write] at hbinlog
  split at hbinlog
  · cases hbinlog
  · cases hbinlog
    simp only [ends_set, ends_pure]
    exact ⟨trivial, rfl, rfl, rfl, rfl, rfl, rfl, rfl⟩

theorem writeBundle_appends (hopen : s.binlogOpen = true)
    (hoffset : s.binlog.offset ≤ s.binlog.data.length) (header list : List UInt8) :
    Ends (fun error t => error = .noError ∧ Appended (header ++ list) s t) Any
      (writeBundle env header list s) := by
  simp only [writeBundle, ends_bind]
  refine (writeBinlog_appends hwritten hopen header).imp ?_
  rintro good t ⟨rfl, ht⟩
  by_cases hlist : list = []
  · subst hlist
    simp only [ne_eq, not_true_eq_false, and_false, if_false, ends_pure, if_true, ends_bind,
      ends_modify]
    refine ⟨trivial, ?_⟩
    rw [List.append_nil]
    exact ⟨ht.data, ht.offset, ht.isOpen, ht.map, ht.time, ht.removing, ht.accessed⟩
  · simp only [ne_eq, hlist, not_false_eq_true, and_self, if_true]
    rw [ends_bind]
    refine (writeBinlog_appends hwritten (ht.isOpen.trans hopen) list).imp ?_
    rintro good u ⟨rfl, hu⟩
    simp only [if_true, ends_bind, ends_modify, ends_pure]
    refine ⟨trivial, ?_, ?_, hu.isOpen.trans ht.isOpen, hu.map.trans ht.map,
      hu.time.trans ht.time, hu.removing.trans ht.removing, hu.accessed.trans ht.accessed⟩
    · have hbefore : (s.binlog.data.take s.binlog.offset ++ header).length = t.binlog.offset := by
        rw [ht.offset, List.length_append, List.length_take, Nat.min_eq_left hoffset]
      rw [hu.data, ht.data, ← hbefore, List.take_left, List.drop_length_add_append, List.drop_drop,
        List.length_append, List.append_assoc _ header, Nat.add_assoc]
    · rw [hu.offset, ht.offset, List.length_append, Nat.add_assoc]

/-! ### Bundles -/

variable (hblocks : BlocksSuffice env.settings)
include hblocks

theorem writeMultiRemove_logged (h : Logged env.settings torn pending s) :
    Ends (fun _ t => Logged env.settings torn pending t ∧ t.map = s.map ∧ t.accessed = s.accessed ∧
      t.removing = ∅) Any (writeMultiRemove env s) := by
  obtain ⟨system, rs, hlog, hpending⟩ := h
  simp only [writeMultiRemove, ends_bind, ends_get]
  split
  · trivial
  next hsize =>
  split
  · next hempty =>
    exact ⟨⟨system, rs, hlog, hpending⟩, rfl, rfl, Std.ExtTreeSet.isEmpty_iff.mp hempty⟩
  next hempty =>
  have hlog₁ : LogOf env.settings torn system rs { s with removing := ∅ } :=
    ⟨hlog.isOpen, hlog.data, hlog.offset, hlog.start, hlog.readable, hlog.untracked⟩
  rw [ends_bind, ends_set]
  refine (writeBundle_appends hwritten hlog₁.isOpen hlog₁.offset_le _ _).imp ?_
  rintro error t ⟨-, ht⟩
  have hlength : s.removing.toList.length = s.removing.size := Std.ExtTreeSet.length_toList
  have hpos : 0 < s.removing.size := by
    rw [Nat.pos_iff_ne_zero]
    intro hzero
    exact hempty (Std.ExtTreeSet.isEmpty_iff.mpr
      (Std.ExtTreeSet.eq_empty_iff_size_eq_zero.mpr hzero))
  have hr : Readable env.settings (.multiRemove s.removing.toList) := by
    refine ⟨⟨by omega, by omega⟩, trivial, ?_⟩
    exact length_bundle (by simp [sizeofHead]) _ hblocks (by omega)
  refine ⟨⟨system, _, hlog₁.append hr ht, fun key => ?_⟩, ht.map, ht.accessed, ht.removing⟩
  rw [ht.removing, hpending, replayed_multiRemove, if_neg Std.ExtTreeSet.not_mem_empty]
  simp only [Std.ExtTreeSet.mem_toList]

theorem writeMultiRemoveLazy_logged (h : Logged env.settings torn pending s) :
    Ends (fun _ t => Logged env.settings torn pending t ∧ t.map = s.map ∧ t.accessed = s.accessed) Any
      (writeMultiRemoveLazy env s) := by
  simp only [writeMultiRemoveLazy, ends_bind, ends_get]
  split
  · rw [ends_discard]
    exact (writeMultiRemove_logged hwritten hblocks h).imp fun _ t ht => ⟨ht.1, ht.2.1, ht.2.2.1⟩
  · exact ⟨h, rfl, rfl⟩

/-- All accesses are written, with the time that their entries get. -/
theorem writeMultiAccessBlock_consistent (h : Consistent env.settings torn s) :
    Ends (fun _ t => Consistent env.settings torn t ∧ t.accessed = ∅ ∧ t.removing = s.removing) Any
      (writeMultiAccessBlock env s) := by
  obtain ⟨pending, ⟨system, rs, hlog, hpending⟩, hmatches⟩ := h
  rw [writeMultiAccessBlock]
  split
  · trivial
  next htracked =>
  simp only [ends_bind, ends_get]
  split
  · trivial
  next hsize =>
  rw [ends_bind]
  refine countTimePoint_kept.imp ?_
  rintro time s' rfl
  simp only [ends_bind, ends_get, ends_set]
  have hlog₁ : LogOf env.settings torn system rs { s with
      asked := s.asked + 1
      accessed := ∅
      toIndex := s.accessed.toList.foldl (·.setUseTime · time.relative)
        { s.toIndex with time } } :=
    ⟨hlog.isOpen, hlog.data, hlog.offset, hlog.start, hlog.readable, fun h => absurd h htracked⟩
  refine (writeBundle_appends hwritten hlog₁.isOpen hlog₁.offset_le _ _).imp ?_
  rintro error t ⟨-, ht⟩
  have hlength : s.accessed.toList.length = s.accessed.size := Std.ExtTreeSet.length_toList
  rw [Bool.not_eq_false] at htracked
  have hr : Readable env.settings (.multiAccess time s.accessed.toList) := by
    refine ⟨⟨htracked, by omega⟩, htracked, ?_⟩
    exact length_bundle (by simp [sizeofHead]) _ hblocks (by omega)
  refine ⟨⟨fun key => if key ∈ s.accessed then (pending key).map (Entry.withUseTime time.relative)
    else pending key, ⟨system, _, hlog₁.append hr ht, fun key => ?_⟩, fun key => ?_⟩, ht.accessed,
    ht.removing⟩
  · have hremoving : t.removing = s.removing := ht.removing
    rw [hremoving, replayed_multiAccess]
    simp only [Std.ExtTreeSet.mem_toList, hpending]
    split_ifs <;> rfl
  · have hmap : t.map[key]? = if key ∈ s.accessed then
        s.map[key]?.map (Entry.withUseTime time.relative) else s.map[key]? := by
      rw [ht.map]
      refine (foldl_setUseTime_getElem? _ _ _ key).trans ?_
      simp only [Std.ExtTreeSet.mem_toList]
    have heq : t.map[key]? = if key ∈ s.accessed then
        (pending key).map (Entry.withUseTime time.relative) else pending key := by
      rw [hmap]
      split
      · exact map_withUseTime (hmatches key).blurred time.relative
      · next hkey => exact (hmatches key).unaccessed hkey
    exact ⟨by rw [heq], fun _ => heq⟩

/-! ### Accesses and removals -/

theorem writeMultiRemove_consistent (h : Consistent env.settings torn s) :
    Ends (fun _ t => Consistent env.settings torn t ∧ t.removing = ∅) Any (writeMultiRemove env s) := by
  obtain ⟨pending, hlogged, hmatches⟩ := h
  refine (writeMultiRemove_logged hwritten hblocks hlogged).imp ?_
  rintro _ t ⟨ht, hmap, haccessed, hremoving⟩
  refine ⟨⟨pending, ht, fun key => ⟨?_, ?_⟩⟩, hremoving⟩
  · rw [hmap]
    exact (hmatches key).blurred
  · rw [hmap, haccessed]
    exact (hmatches key).unaccessed

theorem writeMultiAccess_consistent (h : Consistent env.settings torn s) :
    Ends (fun _ t => Consistent env.settings torn t ∧ t.accessed = ∅ ∧ t.removing = s.removing) Any
      (writeMultiAccess env s) := by
  simp only [writeMultiAccess, ends_bind, ends_get]
  split
  · next hempty => exact ⟨h, Std.ExtTreeSet.isEmpty_iff.mp hempty, rfl⟩
  · exact writeMultiAccessBlock_consistent hwritten hblocks h

/-- Nothing waits to be written any more. -/
theorem writeBundles_consistent (h : Consistent env.settings torn s) :
    Ends (fun _ t => Consistent env.settings torn t ∧ t.removing = ∅ ∧ t.accessed = ∅) Any
      (writeBundles env s) := by
  simp only [writeBundles, ends_bind, ends_discard]
  refine (writeMultiRemove_consistent hwritten hblocks h).imp ?_
  rintro _ t ⟨ht, hremoving⟩
  split
  · rw [ends_discard]
    refine (writeMultiAccess_consistent hwritten hblocks ht).imp ?_
    rintro _ u ⟨hu, haccessed, hremoving'⟩
    exact ⟨hu, hremoving'.trans hremoving, haccessed⟩
  · next htracked =>
    obtain ⟨pending, ⟨system, rs, hlog, hpending⟩, hmatches⟩ := ht
    have haccessed := (hlog.untracked (Bool.not_eq_true _ ▸ htracked)).2
    exact ⟨⟨pending, ⟨system, rs, hlog, hpending⟩, hmatches⟩, hremoving, haccessed⟩

theorem recordEntryAccess_holds (key : Key) : Holds env.settings torn (recordEntryAccess env key) := by
  refine holds_of fun s hs => ?_
  rw [recordEntryAccess]
  split
  · next htracked =>
    have hs₁ : Consistent env.settings torn { s with accessed := s.accessed.insert key } := by
      obtain ⟨pending, ⟨system, rs, hlog, hpending⟩, hmatches⟩ := hs
      refine ⟨pending, ⟨system, rs, ⟨hlog.isOpen, hlog.data, hlog.offset, hlog.start, hlog.readable, ?_⟩,
        hpending⟩, fun k => ⟨(hmatches k).blurred, fun hk => ?_⟩⟩
      · exact fun huntracked => absurd (htracked.symm.trans huntracked) (by decide)
      · exact (hmatches k).unaccessed fun hmem => hk (Std.ExtTreeSet.mem_insert.mpr (.inr hmem))
    simp only [ends_bind, ends_modify, writeMultiAccessLazy, ends_get]
    split
    · rw [ends_discard]
      exact (writeMultiAccess_consistent hwritten hblocks hs₁).imp fun _ _ ht => ht.1
    · exact hs₁
  · exact hs

theorem remove_holds (key : Key) : Holds env.settings torn (remove env key) := by
  refine holds_of fun s hs => ?_
  simp only [remove, ends_bind, ends_get]
  cases hk : s.map[key]? with
  | none => exact hs
  | some entry =>
    obtain ⟨pending, hlogged, hmatches⟩ := hs
    simp only [ends_bind, ends_modify]
    refine (writeMultiRemoveLazy_logged hwritten hblocks (hlogged.insert key)).imp ?_
    rintro _ t ⟨ht, hmap, haccessed⟩
    rw [ends_get, ends_lift]
    refine ⟨fun idx hidx => ?_, fun _ _ => trivial⟩
    rw [ends_set]
    refine Holds.ends (removeFile_onlyAsks _).holds ?_
    refine erase_consistent ht (if_pos rfl) (fun k hne => ⟨?_, ?_⟩) hidx
    · rw [hmap, if_neg hne]
      exact (hmatches k).blurred
    · rw [hmap, haccessed, if_neg hne]
      exact (hmatches k).unaccessed

/-! ### Storing -/

/-- The record is written and its entry stored, in the log and in the map. -/
theorem writeStore_consistent {record : Store} (h : Storable env.settings torn record.key s)
    (hfits : record.Fits env.settings.trackEstimatedTime) :
    Ends (fun good t => good = true ∧ Consistent env.settings torn t) Any
      (writeStore env record s) := by
  obtain ⟨pending, ⟨system, rs, hlog, hpending⟩, hkey, hmatches⟩ := h
  simp only [writeStore, ends_bind]
  refine (writeBinlog_appends hwritten hlog.isOpen _).imp ?_
  rintro good t ⟨rfl, ht⟩
  simp only [if_true, ends_bind, ends_get, ends_lift]
  refine ⟨?_, fun _ _ => trivial⟩
  rintro ⟨idx, applied⟩ hidx
  cases applied with
  | false => exact trivial
  | true =>
    obtain ⟨haccepted, hmap, htime⟩ := processRecordStore_ok hidx
    have hr : Readable env.settings (.store record) := by
      refine ⟨hfits, haccepted, ?_⟩
      rw [Record.encode, length_encodeStore]
      exact hblocks.store
    have hlog' := hlog.append hr ht
    simp only [Bool.true_eq_false, if_false]
    have hentry : record.useTime env.settings.trackEstimatedTime t.time.relative =
        record.useTime env.settings.trackEstimatedTime system.toUInt64 := by
      cases htracked : env.settings.trackEstimatedTime with
      | true => rfl
      | false => exact (hlog'.untracked htracked).1
    refine ⟨rfl, fun k => if record.key = k then
      some (record.toEntry (record.useTime env.settings.trackEstimatedTime system.toUInt64))
      else pending k, ⟨system, _, ⟨hlog'.isOpen, hlog'.data, hlog'.offset, hlog'.start, hlog'.readable, ?_⟩,
      fun k => ?_⟩, fun k => ?_⟩
    · intro htracked
      refine ⟨?_, (hlog'.untracked htracked).2⟩
      rw [← (hlog'.untracked htracked).1]
      exact congrArg EstimatedTimePoint.relative (htime htracked)
    · have hremoving : t.removing = s.removing := ht.removing
      simp only [replayed_store, hpending, hremoving]
      by_cases hk : record.key = k
      · subst hk
        rw [if_pos rfl, if_pos rfl, if_neg hkey]
      · rw [if_neg hk, if_neg hk]
    · have hget : idx.map[k]? = if record.key = k then
          some (record.toEntry (record.useTime env.settings.trackEstimatedTime system.toUInt64))
          else s.map[k]? := by
        have htmap : t.map = s.map := ht.map
        rw [hmap, hentry, htmap, Std.ExtTreeMap.getElem?_insert]
        simp only [Std.LawfulEqCmp.compare_eq_iff_eq]
      by_cases hk : record.key = k
      · rw [if_pos hk] at hget
        refine ⟨?_, fun _ => ?_⟩
        · rw [if_pos hk]
          exact congrArg _ hget
        · rw [if_pos hk]
          exact hget
      · rw [if_neg hk] at hget
        have hmatch := hmatches k (.inl fun h => hk h.symm)
        have haccessed : t.accessed = s.accessed := ht.accessed
        refine ⟨?_, fun hun => ?_⟩
        · rw [if_neg hk, ← hmatch.blurred]
          exact congrArg _ hget
        · rw [if_neg hk, ← hmatch.unaccessed (haccessed ▸ hun)]
          exact hget

theorem writeKeyPlace_consistent {value : TaggedValue} {checksum : UInt32}
    (h : Storable env.settings torn key s) :
    Ends (fun _ t => Consistent env.settings torn t) Any (writeKeyPlace env key value checksum s) := by
  have hend : ∀ (record : Store) (place : PlaceId) (t : DatabaseObject),
      Storable env.settings torn record.key t → record.Fits env.settings.trackEstimatedTime →
      Ends (fun _ u => Consistent env.settings torn u) Any ((do
        return if ← writeStore env record then some place else none) t) := by
    intro record place t ht hfits
    rw [ends_bind]
    exact (writeStore_consistent hwritten hblocks ht hfits).imp fun _ _ hu => hu.2
  simp only [writeKeyPlace, ends_bind]
  refine writingTime_fits.imp ?_
  rintro time t ⟨ht, hfits⟩
  have hstorable := h.same ht.sameLog
  split
  · trivial
  rw [ends_bind, ends_get]
  cases halready : t.map[key]? with
  | some already =>
    dsimp only
    rw [ends_bind]
    refine ((holdsValue_onlyAsks already value checksum).ends t).mono (fun same u hu => ?_)
      fun _ _ => trivial
    have hstorable' := hstorable.same hu.sameLog
    cases same with
    | true =>
      refine hstorable'.consistent ?_
      rw [hu.sameLog.map, halready]
      exact Option.some_ne_none already
    | false =>
      rw [if_neg Bool.false_ne_true]
      exact hend _ _ u hstorable' hfits
  | none =>
    dsimp only
    rw [ends_bind]
    refine (freePlace_onlyAsks.ends t).mono (fun place u hu => ?_) fun _ _ => trivial
    exact hend _ _ u (hstorable.same hu.sameLog) hfits

theorem writeExistingPlace_consistent {entry : Entry} (h : Storable env.settings torn key s) :
    Ends (fun _ t => Consistent env.settings torn t) Any (writeExistingPlace env key entry s) := by
  have hend : ∀ (record : Store) (t : DatabaseObject), Storable env.settings torn record.key t →
      record.Fits env.settings.trackEstimatedTime →
      Ends (fun _ u => Consistent env.settings torn u) Any ((do
        return if ← writeStore env record then Error.noError else .io .binlog) t) := by
    intro record t ht hfits
    rw [ends_bind]
    exact (writeStore_consistent hwritten hblocks ht hfits).imp fun _ _ hu => hu.2
  simp only [writeExistingPlace, ends_bind]
  refine writingTime_fits.imp ?_
  rintro time t ⟨ht, hfits⟩
  have hstorable := h.same ht.sameLog
  split
  · trivial
  rw [ends_bind, ends_get]
  cases halready : t.map[key]? with
  | some already =>
    dsimp only
    rw [ends_bind]
    refine ((holdsEntry_onlyAsks already entry).ends t).mono (fun same u hu => ?_)
      fun _ _ => trivial
    have hstorable' := hstorable.same hu.sameLog
    cases same with
    | true =>
      refine hstorable'.consistent ?_
      rw [hu.sameLog.map, halready]
      exact Option.some_ne_none already
    | false =>
      rw [if_neg Bool.false_ne_true]
      exact hend _ u hstorable' hfits
  | none =>
    dsimp only
    rw [ends_bind, ends_pure, if_neg Bool.false_ne_true]
    exact hend _ t hstorable hfits

theorem put_holds (key : Key) (value : TaggedValue) :
    Holds env.settings torn (Cache.put env key value) := by
  have hremove : ∀ error : Error, Holds env.settings torn (do
      discard (remove env key)
      return error) :=
    fun _ => Follows.bind (remove_holds hwritten hblocks key).discard fun _ => .pure _
  unfold Cache.put
  split
  · exact remove_holds hwritten hblocks key
  refine holds_of fun s hs => ?_
  simp only [forget, ends_bind, ends_modify]
  refine (writeKeyPlace_consistent hwritten hblocks (hs.forget key)).imp fun result t ht => ?_
  cases result with
  | none =>
    refine Holds.ends ?_ ht
    exact Follows.bind (recordEntryAccess_holds hwritten hblocks key) fun _ => .pure _
  | some place =>
    refine Holds.ends (Follows.bind asks_ask.holds fun opened => ?_) ht
    split
    · exact hremove _
    · exact hremove _
    · exact Follows.throw trivial
    · refine Follows.bind (writeValueData_onlyAsks _ _).holds fun written => ?_
      split
      · exact .pure _
      · exact hremove _

theorem get_holds (key : Key) : Holds env.settings torn (Cache.get env key) := by
  refine Follows.get.bind fun db => ?_
  split
  · exact .pure _
  · refine Follows.bind (readValueData_onlyAsks _ _).holds fun bytes => ?_
    split
    · exact Follows.bind (remove_holds hwritten hblocks key).discard fun _ => .pure _
    · exact Follows.bind (recordEntryAccess_holds hwritten hblocks key) fun _ => .pure _

theorem putIfEmpty_holds (key : Key) (value : TaggedValue) :
    Holds env.settings torn (putIfEmpty env key value) := by
  refine Follows.get.bind fun db => ?_
  split
  · exact .pure _
  · exact put_holds hwritten hblocks key value

theorem copyIfEmpty_holds (source target : Key) :
    Holds env.settings torn (copyIfEmpty env source target) := by
  refine Follows.get.bind fun db => ?_
  split
  · exact .pure _
  · exact Follows.bind (get_holds hwritten hblocks source) fun value =>
      put_holds hwritten hblocks target value

theorem moveIfEmpty_holds (source target : Key) :
    Holds env.settings torn (moveIfEmpty env source target) := by
  refine Follows.get.bind fun db => ?_
  split
  · exact .pure _
  refine Follows.get.bind fun db => ?_
  split
  · exact .pure _
  · next entry _ =>
    refine holds_of fun s hs => ?_
    obtain ⟨pending, hlogged, hmatches⟩ := hs
    simp only [ends_bind, ends_modify, ends_get, ends_lift]
    refine ⟨fun idx hidx => ?_, fun _ _ => trivial⟩
    rw [ends_set]
    have hmatches' : ∀ k ≠ source, Matches (fun k => if k = source then none else pending k)
        { s with removing := s.removing.insert source } k := by
      intro k hne
      refine ⟨?_, ?_⟩
      · rw [if_neg hne]
        exact (hmatches k).blurred
      · rw [if_neg hne]
        exact (hmatches k).unaccessed
    have ht := erase_consistent (hlogged.insert source) (if_pos rfl) hmatches' hidx
    refine (writeMultiRemove_consistent hwritten hblocks ht).imp ?_
    rintro error u ⟨hu, -⟩
    split
    · simp only [forget, ends_bind, ends_modify]
      exact writeExistingPlace_consistent hwritten hblocks (hu.forget target)
    · exact hu

/-! ### Clearing -/

theorem forM_remove_holds (keys : List Key) :
    Holds env.settings torn (keys.forM fun key => discard (remove env key)) :=
  Follows.forM keys fun key => (remove_holds hwritten hblocks key).discard

theorem clearStaleChunk_holds : Holds env.settings torn (clearStaleChunk env) := by
  refine Follows.get.bind fun db => ?_
  dsimp only
  split
  · exact .pure _
  · refine Follows.bind (forM_remove_holds hwritten hblocks _) fun _ => holds_modify ?_
    exact fun _ => ⟨rfl, rfl, rfl, rfl, rfl, rfl⟩

theorem clearStaleDelayed_holds : Holds env.settings torn (clearStaleDelayed env) := by
  refine Follows.get.bind fun db => ?_
  split
  · refine Follows.bind (holds_modify ?_) fun _ => clearStaleChunk_holds hwritten hblocks
    exact fun _ => ⟨rfl, rfl, rfl, rfl, rfl, rfl⟩
  · exact .pure _

theorem clearStaleNow_holds (keys : List Key) : Holds env.settings torn (clearStaleNow env keys) := by
  have hsame : ∀ f : DatabaseObject → List Key, Holds env.settings torn
      (modify fun db => { db with stale := f db } : Db PUnit) := by
    intro f
    refine holds_modify ?_
    exact fun _ => ⟨rfl, rfl, rfl, rfl, rfl, rfl⟩
  cases keys with
  | nil => exact .pure _
  | cons front keys =>
    refine Follows.bind (hsame _) fun _ => ?_
    exact Follows.bind (forM_remove_holds hwritten hblocks (front :: keys)) fun _ => hsame _

theorem clearByTag_holds (tag : UInt8) : Holds env.settings torn (clearByTag env tag) := by
  refine Follows.get.bind fun db => Follows.bind mapEntries_onlyAsks.holds fun entries => ?_
  refine Follows.bind (holds_modify ?_) fun _ => ?_
  · exact fun _ => ⟨rfl, rfl, rfl, rfl, rfl, rfl⟩
  dsimp only
  split
  · exact Follows.bind (clearStaleChunk_holds hwritten hblocks) fun _ => .pure _
  · exact .pure _

theorem waitForCleaner_holds : Holds env.settings torn (waitForCleaner env) := by
  have hall : ∀ fuel, Holds env.settings torn (clearAllStale env fuel) := by
    intro fuel
    induction fuel with
    | zero => exact Follows.throw trivial
    | succ fuel ih =>
      refine Follows.get.bind fun db => ?_
      split
      · exact .pure _
      · exact Follows.bind (clearStaleChunk_holds hwritten hblocks) fun _ => ih
  exact Follows.get.bind fun _ => hall _

theorem prune_holds : Holds env.settings torn (prune env) := by
  refine Follows.get.bind fun db => ?_
  split
  · exact .pure _
  refine Follows.bind pruneBeforeTime_onlyAsks.holds fun before => ?_
  refine Follows.bind mapEntries_onlyAsks.holds fun entries => ?_
  refine Follows.get_bind fun s hs => ?_
  rw [ends_bind, ends_set]
  have hclear : ∀ stale : List Key, Holds env.settings torn (do
      if stale.length ≤ env.settings.staleRemoveChunk then clearStaleNow env stale
      else
        modify fun db => { db with stale := stale }
        clearStaleChunk env) := by
    intro stale
    split
    · exact clearStaleNow_holds hwritten hblocks stale
    · refine Follows.bind (holds_modify ?_) fun _ => clearStaleChunk_holds hwritten hblocks
      exact fun _ => ⟨rfl, rfl, rfl, rfl, rfl, rfl⟩
  refine follows_from (Follows.bind mapEntries_onlyAsks.holds fun entries => hclear _)
    (hs.same ?_) (.single trivial)
  exact ⟨collectTimeStale_map _ _ _ _, collectTimeStale_time _ _ _ _, rfl, rfl, rfl, rfl⟩

end

end TelegramClient.Cache
