import Mathlib
import TelegramClient.Cache.Accounting
import TelegramClient.Cache.BinlogReading
import TelegramClient.Lib.KeyedLog

/-! What processing a record does to the entry of one key, and that the accounts
are kept whatever the binlog holds. -/

namespace TelegramClient.Cache

abbrev EntryChange := KeyedLog.Change Entry UInt64

/-- The use time that replaying a record gives its entry, when `current` is the
time of a database that does not track it. -/
def Store.useTime (tracked : Bool) (current : UInt64) (s : Store) : UInt64 :=
  if tracked then s.time.relative else current

def Store.changes (tracked : Bool) (current : UInt64) (key : Key) (s : Store) : List EntryChange :=
  if s.key = key then [.set (some (s.toEntry (s.useTime tracked current)))] else []

/-- What a record does to the entry of a key. -/
def Record.changes (tracked : Bool) (current : UInt64) (key : Key) : Record → List EntryChange
  | .store s => s.changes tracked current key
  | .multiStore parts => parts.flatMap (Store.changes tracked current key)
  | .multiRemove keys => if key ∈ keys then [.set none] else []
  | .multiAccess time keys => if key ∈ keys then [.touch time.relative] else []

def Store.Accepted (settings : Settings) (s : Store) : Prop :=
  s.getSize ≠ 0 ∧ s.getSize ≤ settings.maxDataSize

/-- The records that their handlers take. -/
def Record.Accepted (settings : Settings) : Record → Prop
  | .store s => s.Accepted settings
  | .multiStore parts => ∀ s ∈ parts, s.Accepted settings
  | .multiRemove _ => True
  | .multiAccess _ _ => settings.trackEstimatedTime = true

instance (settings : Settings) (s : Store) : Decidable (s.Accepted settings) :=
  inferInstanceAs (Decidable (_ ∧ _))

instance (settings : Settings) : (r : Record) → Decidable (r.Accepted settings)
  | .store s => inferInstanceAs (Decidable (s.Accepted settings))
  | .multiStore parts => inferInstanceAs (Decidable (∀ s ∈ parts, s.Accepted settings))
  | .multiRemove _ => inferInstanceAs (Decidable True)
  | .multiAccess _ _ => inferInstanceAs (Decidable (_ = _))

/-- `idx'` is `idx` with these changes made to each key. -/
structure Index.Changed (settings : Settings) (idx idx' : Index) (cs : Key → List EntryChange) :
    Prop where
  accounted : idx'.Accounted
  getElem? : ∀ key : Key, idx'.map[key]? =
    KeyedLog.changes Entry.withUseTime (cs key) idx.map[key]?
  time : settings.trackEstimatedTime = false → idx'.time = idx.time

variable {settings : Settings} {idx idx' idx'' : Index}

theorem Index.Changed.refl (h : idx.Accounted) : idx.Changed settings idx fun _ => [] :=
  ⟨h, fun _ => rfl, fun _ => rfl⟩

theorem Index.Changed.trans {cs ds : Key → List EntryChange} (h : idx.Changed settings idx' cs)
    (h' : idx'.Changed settings idx'' ds) :
    idx.Changed settings idx'' fun key => cs key ++ ds key where
  accounted := h'.accounted
  getElem? key := by rw [h'.getElem?, h.getElem?, KeyedLog.changes_append]
  time ht := (h'.time ht).trans (h.time ht)

/-! ### The accounts -/

theorem decodeMulti_error {α : Type} {decode : List UInt8 → α} {part : Nat} {strict : Bool}
    {data : List UInt8} {stop : Stop} (h : decodeMulti decode part strict data = .error stop) :
    stop = .assertion := by
  rw [decodeMulti] at h
  split at h
  · cases h
    rfl
  split at h
  · cases h
    rfl
  split at h
  · cases h
  · cases h
    rfl

theorem map_error {α β : Type} {f : α → β} {x : Run α} {stop : Stop}
    (h : f <$> x = .error stop) : x = .error stop := by
  cases x with
  | error e => exact congrArg Except.error (Except.error.inj h)
  | ok a => cases h

theorem decodeRecord_error {tracked : Bool} {data : List UInt8} {stop : Stop}
    (h : decodeRecord tracked data = .error stop) : stop = .assertion := by
  cases data with
  | nil =>
    cases h
    rfl
  | cons type bs =>
    rw [decodeRecord] at h
    split at h
    · split at h
      · cases h
      · cases h
        rfl
    split at h
    · exact decodeMulti_error (map_error h)
    split at h
    · exact decodeMulti_error (map_error h)
    split at h
    · exact decodeMulti_error (map_error h)
    · cases h
      rfl

/-- Whatever a handler answers, the accounts are kept and nothing underflows. -/
def KeepsAccounts (result : Run (Index × Bool)) : Prop :=
  match result with
  | .ok (idx, _) => idx.Accounted
  | .error stop => stop = .assertion

theorem KeepsAccounts.of_ok {result : Run (Index × Bool)} {good : Bool}
    (heq : result = .ok (idx, good)) (h : idx.Accounted) : KeepsAccounts result := by
  rw [heq]
  exact h

theorem Index.Accounted.applyTimePoint (h : idx.Accounted) (time : EstimatedTimePoint) :
    (idx.applyTimePoint time).Accounted := by
  rw [Index.applyTimePoint]
  split
  · exact h.with_time time idx.binlogExcessLength
  · exact h

theorem Index.applyTimePoint_map (idx : Index) (time : EstimatedTimePoint) :
    (idx.applyTimePoint time).map = idx.map := by
  rw [Index.applyTimePoint]
  split <;> rfl

theorem processRecordStore_accepted {s : Store} (h : idx.Accounted) (hs : s.Accepted settings) :
    ∃ idx', processRecordStore settings idx s = .ok (idx', true) ∧
      idx'.Accounted ∧
      idx'.map = idx.map.insert s.key
        (s.toEntry (s.useTime settings.trackEstimatedTime idx.time.relative)) ∧
      (settings.trackEstimatedTime = false → idx'.time = idx.time) := by
  rw [processRecordStore, if_neg (by rintro (hz | hl); exacts [hs.1 hz, absurd hs.2 (by omega)])]
  cases htrack : settings.trackEstimatedTime with
  | true =>
    obtain ⟨idx', heq, hacc, hmap, -⟩ := (h.applyTimePoint s.time).setMapEntry true s.key
      (show (s.toEntry s.time.relative).size ≠ 0 from hs.1)
    refine ⟨idx', by simp [heq, bind, Except.bind]; rfl, hacc, ?_, fun hf => by cases hf⟩
    rw [hmap, Index.applyTimePoint_map]
    rfl
  | false =>
    obtain ⟨idx', heq, hacc, hmap, htime⟩ := h.setMapEntry false s.key
      (show (s.toEntry idx.time.relative).size ≠ 0 from hs.1)
    exact ⟨idx', by simp [heq, bind, Except.bind]; rfl, hacc, hmap, fun _ => htime⟩

theorem processRecordStore_refused {s : Store} (hs : ¬s.Accepted settings) :
    processRecordStore settings idx s = .ok (idx, false) := by
  rw [processRecordStore, if_pos]
  by_contra hc
  exact hs ⟨fun hz => hc (.inl hz), by omega⟩

theorem processRecordMultiStore_keeps (h : idx.Accounted) (parts : List Store) :
    KeepsAccounts (processRecordMultiStore settings idx parts) := by
  induction parts generalizing idx with
  | nil => exact h
  | cons s parts ih =>
    rw [processRecordMultiStore]
    by_cases hs : s.Accepted settings
    · obtain ⟨idx', heq, hacc, -⟩ := processRecordStore_accepted h hs
      simpa only [heq] using ih hacc
    · rw [processRecordStore_refused hs]
      exact h

theorem foldlM_eraseMapEntry (h : idx.Accounted) (keys : List Key) :
    ∃ idx', keys.foldlM (fun idx key =>
        { idx with binlogExcessLength := idx.binlogExcessLength + sizeofKey }.eraseMapEntry key)
        idx = .ok idx' ∧ idx'.Accounted ∧ idx'.time = idx.time ∧
      ∀ key : Key, idx'.map[key]? = if key ∈ keys then none else idx.map[key]? := by
  induction keys generalizing idx with
  | nil => exact ⟨idx, rfl, h, rfl, fun _ => rfl⟩
  | cons k keys ih =>
    obtain ⟨idx₁, heq₁, hacc₁, hmap₁, htime₁⟩ :=
      (h.with_time idx.time (idx.binlogExcessLength + sizeofKey)).eraseMapEntry k
    obtain ⟨idx₂, heq₂, hacc₂, htime₂, hget₂⟩ := ih hacc₁
    refine ⟨idx₂, ?_, hacc₂, htime₂.trans htime₁, fun key => ?_⟩
    · rw [List.foldlM_cons, heq₁]
      exact heq₂
    · rw [hget₂, hmap₁, Std.ExtTreeMap.getElem?_erase]
      by_cases hk : k = key
      · simp [hk]
      · simp [hk, Ne.symm hk]

theorem processRecordMultiRemove_spec (h : idx.Accounted) (keys : List Key) :
    ∃ idx', processRecordMultiRemove idx keys = .ok (idx', true) ∧ idx'.Accounted ∧
      idx'.time = idx.time ∧
      ∀ key : Key, idx'.map[key]? = if key ∈ keys then none else idx.map[key]? := by
  obtain ⟨idx', heq, hacc, htime, hget⟩ :=
    foldlM_eraseMapEntry (h.with_time idx.time (idx.binlogExcessLength + sizeofHead)) keys
  refine ⟨idx', ?_, hacc, htime, hget⟩
  rw [processRecordMultiRemove]
  simp only [heq, bind, Except.bind]
  rfl

theorem foldl_setUseTime (h : idx.Accounted) (keys : List Key) (useTime : UInt64) :
    let idx' := keys.foldl (fun idx key =>
      { idx with binlogExcessLength := idx.binlogExcessLength + sizeofKey }.setUseTime key
        useTime) idx
    idx'.Accounted ∧ idx'.time = idx.time ∧ ∀ key : Key, idx'.map[key]? =
      if key ∈ keys then idx.map[key]?.map (Entry.withUseTime useTime) else idx.map[key]? := by
  induction keys generalizing idx with
  | nil => exact ⟨h, rfl, fun _ => rfl⟩
  | cons k keys ih =>
    obtain ⟨hacc, htime, hget⟩ := ih
      ((h.with_time idx.time (idx.binlogExcessLength + sizeofKey)).setUseTime k useTime)
    refine ⟨hacc, htime, fun key => ?_⟩
    rw [List.foldl_cons, hget, Index.setUseTime, Std.ExtTreeMap.getElem?_modify]
    by_cases hk : k = key
    · subst hk
      simp only [Std.ReflCmp.compare_self, if_true, List.mem_cons, true_or]
      split
      · rw [Option.map_map]
        rfl
      · rfl
    · simp [hk, Ne.symm hk]

theorem processRecordMultiAccess_spec (h : idx.Accounted) (htrack : settings.trackEstimatedTime = true)
    (time : EstimatedTimePoint) (keys : List Key) :
    ∃ idx', processRecordMultiAccess settings idx time keys = .ok (idx', true) ∧ idx'.Accounted ∧
      ∀ key : Key, idx'.map[key]? =
        if key ∈ keys then idx.map[key]?.map (Entry.withUseTime time.relative)
        else idx.map[key]? := by
  obtain ⟨hacc, -, hget⟩ := foldl_setUseTime
    ((h.applyTimePoint time).with_time (idx.applyTimePoint time).time
      ((idx.applyTimePoint time).binlogExcessLength + sizeofHead)) keys time.relative
  refine ⟨_, by rw [processRecordMultiAccess, if_neg (by simp [htrack])], hacc, fun key => ?_⟩
  rw [hget]
  simp only [Index.applyTimePoint_map]

theorem processRecord_keeps (h : idx.Accounted) (r : Record) :
    KeepsAccounts (processRecord settings idx r) := by
  cases r with
  | store s =>
    by_cases hs : s.Accepted settings
    · obtain ⟨idx', heq, hacc, -⟩ := processRecordStore_accepted h hs
      exact .of_ok heq hacc
    · exact .of_ok (processRecordStore_refused hs) h
  | multiStore parts => exact processRecordMultiStore_keeps h parts
  | multiRemove keys =>
    obtain ⟨idx', heq, hacc, -⟩ := processRecordMultiRemove_spec h keys
    exact .of_ok heq hacc
  | multiAccess time keys =>
    cases htrack : settings.trackEstimatedTime with
    | true =>
      obtain ⟨idx', heq, hacc, -⟩ := processRecordMultiAccess_spec h htrack time keys
      exact .of_ok heq hacc
    | false => simp [processRecord, processRecordMultiAccess, htrack, KeepsAccounts]

theorem handleRecord_keeps (h : idx.Accounted) (bytes : List UInt8) :
    KeepsAccounts (handleRecord settings idx bytes) := by
  rw [handleRecord]
  cases hd : decodeRecord settings.trackEstimatedTime bytes with
  | error stop => exact decodeRecord_error hd
  | ok r => exact processRecord_keeps h r

/-! ### One record -/

theorem changed_store {s : Store} (h : idx.Accounted) (hs : s.Accepted settings) :
    ∃ idx', processRecordStore settings idx s = .ok (idx', true) ∧
      idx.Changed settings idx'
        fun key => s.changes settings.trackEstimatedTime idx.time.relative key := by
  obtain ⟨idx', heq, hacc, hmap, htime⟩ := processRecordStore_accepted h hs
  refine ⟨idx', heq, hacc, fun key => ?_, htime⟩
  rw [hmap, Std.ExtTreeMap.getElem?_insert, Store.changes]
  simp only [Std.LawfulEqCmp.compare_eq_iff_eq]
  split <;> rfl

theorem Store.changes_tracked {current current' : UInt64} (key : Key)
    (h : settings.trackEstimatedTime = false → current = current') :
    Store.changes settings.trackEstimatedTime current key =
      Store.changes settings.trackEstimatedTime current' key := by
  cases htrack : settings.trackEstimatedTime with
  | true => rfl
  | false => rw [h htrack]

theorem Record.changes_tracked {current current' : UInt64} (key : Key)
    (h : settings.trackEstimatedTime = false → current = current') :
    Record.changes settings.trackEstimatedTime current key =
      Record.changes settings.trackEstimatedTime current' key := by
  have hs := Store.changes_tracked key h
  funext r
  cases r with
  | store s => exact congrFun hs s
  | multiStore parts => simp only [Record.changes, hs]
  | multiRemove keys => rfl
  | multiAccess time keys => rfl

theorem Index.Changed.relative {cs : Key → List EntryChange} (h : idx.Changed settings idx' cs)
    (ht : settings.trackEstimatedTime = false) : idx'.time.relative = idx.time.relative := by
  rw [h.time ht]

theorem changed_multiStore {parts : List Store} (h : idx.Accounted)
    (hs : ∀ s ∈ parts, s.Accepted settings) :
    ∃ idx', processRecordMultiStore settings idx parts = .ok (idx', true) ∧
      idx.Changed settings idx' fun key =>
        parts.flatMap (Store.changes settings.trackEstimatedTime idx.time.relative key) := by
  induction parts generalizing idx with
  | nil => exact ⟨idx, rfl, .refl h⟩
  | cons s parts ih =>
    obtain ⟨idx₁, heq₁, hch₁⟩ := changed_store h (hs s List.mem_cons_self)
    obtain ⟨idx₂, heq₂, hch₂⟩ := ih hch₁.accounted fun q hq => hs q (List.mem_cons_of_mem _ hq)
    refine ⟨idx₂, by simpa only [processRecordMultiStore, heq₁] using heq₂, ?_⟩
    have heach : ∀ key, Store.changes settings.trackEstimatedTime idx₁.time.relative key =
        Store.changes settings.trackEstimatedTime idx.time.relative key :=
      fun key => Store.changes_tracked key hch₁.relative
    simpa only [List.flatMap_cons, heach] using hch₁.trans hch₂

theorem processRecord_accepted {r : Record} (h : idx.Accounted) (hr : r.Accepted settings) :
    ∃ idx', processRecord settings idx r = .ok (idx', true) ∧
      idx.Changed settings idx' fun key =>
        r.changes settings.trackEstimatedTime idx.time.relative key := by
  cases r with
  | store s => exact changed_store h hr
  | multiStore parts => exact changed_multiStore h hr
  | multiRemove keys =>
    obtain ⟨idx', heq, hacc, htime, hget⟩ := processRecordMultiRemove_spec h keys
    refine ⟨idx', heq, hacc, fun key => ?_, fun _ => htime⟩
    rw [hget, Record.changes]
    split <;> rfl
  | multiAccess time keys =>
    obtain ⟨idx', heq, hacc, hget⟩ := processRecordMultiAccess_spec h hr time keys
    refine ⟨idx', heq, hacc, fun key => ?_, fun hf => ?_⟩
    · rw [hget, Record.changes]
      split <;> rfl
    · exact absurd (hr.symm.trans hf) (by decide)

/-! ### A log of records -/

/-- What the records of a log do to the entry of a key. -/
def logChanges (tracked : Bool) (current : UInt64) (rs : List Record) (key : Key) :
    List EntryChange :=
  rs.flatMap (Record.changes tracked current key)

/-! ### Any log -/

section

variable {σ : Type} {F : Framing UInt8} {B : Nat} {handle : σ → List UInt8 → Run (σ × Bool)}
  {I : σ → Prop} {E : Stop → Prop}

theorem handleRecords_keeps
    (hhandle : ∀ s bytes, I s → match handle s bytes with | .ok p => I p.1 | .error stop => E stop)
    (hrunning : E .running) (fuel : Nat) (w : BinlogWrapper) {s : σ} (hs : I s) :
    match handleRecords F handle fuel w s with | .ok p => I p.2.2 | .error stop => E stop := by
  induction fuel generalizing w s with
  | zero => exact hrunning
  | succ fuel ih =>
    rw [handleRecords]
    rcases w.readRecord F with ⟨_ | ⟨b, bs⟩, w'⟩
    · exact hs
    · have hh := hhandle s (b :: bs) hs
      simp only
      cases hb : handle s (b :: bs) with
      | error stop => simpa only [hb] using hh
      | ok p =>
        obtain ⟨s', good⟩ := p
        rw [hb] at hh
        cases good with
        | true => exact ih w' hh
        | false => exact hh

theorem ByteFile.read_error {f : ByteFile} {n : Nat} {stop : Stop} (h : f.read n = .error stop) :
    stop = .assertion := by
  rw [ByteFile.read] at h
  split at h
  · cases h
    rfl
  · simp only at h
    split at h
    · cases h
      rfl
    · cases h

theorem BinlogWrapper.readPart_error {w : BinlogWrapper} {stop : Stop}
    (h : w.readPart B = .error stop) : stop = .assertion := by
  rw [BinlogWrapper.readPart] at h
  split at h
  · cases h
  simp only at h
  split at h
  · cases h
  split at h
  · cases h
    rfl
  split at h
  · next hr =>
    cases h
    exact ByteFile.read_error hr
  · cases h
  · cases h

theorem readBinlogHelper_keeps
    (hhandle : ∀ s bytes, I s → match handle s bytes with | .ok p => I p.1 | .error stop => E stop)
    (hrunning : E .running) (hassertion : E .assertion) (fuel : Nat) (w : BinlogWrapper) {s : σ}
    (hs : I s) :
    match readBinlogHelper F B handle fuel w s with | .ok p => I p.2 | .error stop => E stop := by
  induction fuel generalizing w s with
  | zero => exact hrunning
  | succ fuel ih =>
    rw [readBinlogHelper, readTillEnd]
    cases hp : w.readPart B with
    | error stop => exact BinlogWrapper.readPart_error hp ▸ hassertion
    | ok p =>
      obtain ⟨more, w'⟩ := p
      cases more with
      | false => exact hs
      | true =>
        have hh := handleRecords_keeps (F := F) hhandle hrunning (w'.part.length + 1) w' hs
        simp only
        cases hr : handleRecords F handle (w'.part.length + 1) w' s with
        | error stop => simpa only [hr] using hh
        | ok q =>
          obtain ⟨done, w'', s'⟩ := q
          rw [hr] at hh
          cases done with
          | true => exact hh
          | false => exact ih w'' hh

end

end TelegramClient.Cache
