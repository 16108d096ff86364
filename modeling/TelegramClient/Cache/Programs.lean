import Mathlib
import TelegramClient.Cache.TimePruning

/-! What the calls of the owner of the database do to its index: they store, erase and access
entries and clear everything. Pruning does more and is left to those who use this. -/

namespace TelegramClient.Cache

open Program

/-- All but the time and the excess length of the binlog is the same. -/
structure SameEntries (idx idx' : Index) : Prop where
  map : idx'.map = idx.map
  totalSize : idx'.totalSize = idx.totalSize
  taggedStats : idx'.taggedStats = idx.taggedStats
  minimalEntryTime : idx'.minimalEntryTime = idx.minimalEntryTime
  count : idx'.entriesWithMinimalTimeCount = idx.entriesWithMinimalTimeCount

theorem SameEntries.refl (idx : Index) : SameEntries idx idx := ⟨rfl, rfl, rfl, rfl, rfl⟩

theorem SameEntries.trans {idx₁ idx₂ idx₃ : Index} (h : SameEntries idx₁ idx₂)
    (h' : SameEntries idx₂ idx₃) : SameEntries idx₁ idx₃ :=
  ⟨h'.map.trans h.map, h'.totalSize.trans h.totalSize, h'.taggedStats.trans h.taggedStats,
    h'.minimalEntryTime.trans h.minimalEntryTime, h'.count.trans h.count⟩

/-- An invariant of the index, a relation between the indexes before and after a change of it, and
the stops that are allowed. -/
structure IndexRules (settings : Settings) (I : Index → Prop) (R : Index → Index → Prop)
    (E : Stop → Prop) : Prop where
  stop : ∀ stop, stop ≠ .underflow → E stop
  same : ∀ idx idx', SameEntries idx idx' → I idx → I idx' ∧ R idx idx'
  store : ∀ idx key entry, I idx → entry.size ≠ 0 →
    Returns (fun idx' => I idx' ∧ R idx idx') E
      (idx.setMapEntry settings.trackEstimatedTime key entry)
  erase : ∀ idx key, I idx → Returns (fun idx' => I idx' ∧ R idx idx') E (idx.eraseMapEntry key)
  access : ∀ idx key useTime, I idx →
    I (idx.setUseTime key useTime) ∧ R idx (idx.setUseTime key useTime)
  clear : ∀ idx, I {} ∧ R idx {}

variable {settings : Settings} {env : Environment} {I : Index → Prop} {R : Index → Index → Prop}
  {E : Stop → Prop} {s t : DatabaseObject} {α : Type} {m : Db α}

/-! ### Records -/

section

variable {idx : Index}

/-- The index has the invariant, and changes lead to it. -/
def Onward (I : Index → Prop) (R : Index → Index → Prop) (idx idx' : Index) : Prop :=
  I idx' ∧ Relation.ReflTransGen R idx idx'

theorem Onward.trans {idx₁ idx₂ : Index} (h : Onward I R idx idx₁) (h' : Onward I R idx₁ idx₂) :
    Onward I R idx idx₂ := ⟨h'.1, h.2.trans h'.2⟩

theorem onward_of {idx' : Index} (h : I idx' ∧ R idx idx') : Onward I R idx idx' :=
  ⟨h.1, .single h.2⟩

theorem applyTimePoint_same (idx : Index) (time : EstimatedTimePoint) :
    SameEntries idx (idx.applyTimePoint time) := by
  rw [Index.applyTimePoint]
  split <;> exact ⟨rfl, rfl, rfl, rfl, rfl⟩

variable (h : IndexRules settings I R E)
include h

theorem excess_onward (hidx : I idx) (length : Nat) : Onward I R idx
    { idx with binlogExcessLength := idx.binlogExcessLength + length } :=
  onward_of (h.same idx _ ⟨rfl, rfl, rfl, rfl, rfl⟩ hidx)

theorem processRecordStore_onward (hidx : I idx) (record : Store) :
    Returns (fun p => Onward I R idx p.1) E (processRecordStore settings idx record) := by
  rw [processRecordStore]
  split
  · exact ⟨hidx, .refl⟩
  next hsize =>
  have hne : record.getSize ≠ 0 := fun hzero => hsize (.inl hzero)
  cases htracked : settings.trackEstimatedTime with
  | true =>
    have htime := onward_of (h.same idx _ (applyTimePoint_same idx record.time) hidx)
    have hstore := h.store (idx.applyTimePoint record.time) record.key
      (record.toEntry record.time.relative) htime.1 hne
    rw [htracked] at hstore
    rw [if_pos rfl, returns_bind]
    exact hstore.imp fun idx' hidx' => htime.trans (onward_of hidx')
  | false =>
    have hstore := h.store idx record.key (record.toEntry idx.time.relative) hidx hne
    rw [htracked] at hstore
    rw [if_neg Bool.false_ne_true, returns_bind]
    exact hstore.imp fun idx' hidx' => onward_of hidx'

theorem processRecordMultiStore_onward (hidx : I idx) (parts : List Store) :
    Returns (fun p => Onward I R idx p.1) E (processRecordMultiStore settings idx parts) := by
  induction parts generalizing idx with
  | nil => exact ⟨hidx, .refl⟩
  | cons record parts ih =>
    have hfirst := processRecordStore_onward h hidx record
    rw [processRecordMultiStore]
    cases hstore : processRecordStore settings idx record with
    | error stop =>
      rw [hstore] at hfirst
      exact hfirst
    | ok result =>
      rw [hstore] at hfirst
      obtain ⟨idx₁, good⟩ := result
      cases good with
      | true => exact (ih hfirst.1).imp fun p hp => Onward.trans hfirst hp
      | false => exact hfirst

theorem foldlM_eraseMapEntry_onward (hidx : I idx) (keys : List Key) :
    Returns (fun idx' => Onward I R idx idx') E (keys.foldlM (fun idx key =>
      { idx with binlogExcessLength := idx.binlogExcessLength + sizeofKey }.eraseMapEntry key)
      idx) := by
  induction keys generalizing idx with
  | nil => exact ⟨hidx, .refl⟩
  | cons key keys ih =>
    have hexcess := excess_onward h hidx sizeofKey
    rw [List.foldlM_cons, returns_bind]
    refine (h.erase _ key hexcess.1).imp fun idx₁ hidx₁ => ?_
    exact (ih hidx₁.1).imp fun idx₂ hidx₂ => (hexcess.trans (onward_of hidx₁)).trans hidx₂

theorem foldl_access_onward (hidx : I idx) (keys : List Key) (useTime : UInt64) :
    Onward I R idx (keys.foldl (fun idx key =>
      { idx with binlogExcessLength := idx.binlogExcessLength + sizeofKey }.setUseTime key
        useTime) idx) := by
  induction keys generalizing idx with
  | nil => exact ⟨hidx, .refl⟩
  | cons key keys ih =>
    have hexcess := excess_onward h hidx sizeofKey
    have haccess := onward_of (h.access _ key useTime hexcess.1)
    exact (hexcess.trans haccess).trans (ih haccess.1)

theorem processRecord_onward (hidx : I idx) (record : Record) :
    Returns (fun p => Onward I R idx p.1) E (processRecord settings idx record) := by
  cases record with
  | store record => exact processRecordStore_onward h hidx record
  | multiStore parts => exact processRecordMultiStore_onward h hidx parts
  | multiRemove keys =>
    have hexcess := excess_onward h hidx sizeofHead
    rw [processRecord, processRecordMultiRemove, returns_bind]
    exact (foldlM_eraseMapEntry_onward h hexcess.1 keys).imp fun idx' hidx' => hexcess.trans hidx'
  | multiAccess time keys =>
    rw [processRecord, processRecordMultiAccess]
    split
    · exact h.stop .assertion (by decide)
    · have htime := onward_of (h.same idx _ (applyTimePoint_same idx time) hidx)
      have hexcess := excess_onward h htime.1 sizeofHead
      exact (htime.trans hexcess).trans (foldl_access_onward h hexcess.1 keys time.relative)

theorem handleRecord_onward (hidx : I idx) (bytes : List UInt8) :
    Returns (fun p => Onward I R idx p.1) E (handleRecord settings idx bytes) := by
  rw [handleRecord]
  cases hdecode : decodeRecord settings.trackEstimatedTime bytes with
  | error stop => exact h.stop stop (by rw [decodeRecord_error hdecode]; decide)
  | ok record => exact processRecord_onward h hidx record

/-- The handlers are called for one record after the other. -/
theorem readBinlogHelper_onward (hidx : I idx) {F : Framing UInt8} {B fuel : Nat}
    (w : BinlogWrapper) : Returns (fun p => Onward I R idx p.2) E
      (readBinlogHelper F B (handleRecord settings) fuel w idx) := by
  have hkeeps := @readBinlogHelper_keeps Index F B (handleRecord settings) (Onward I R idx) E (by
    intro idx₁ bytes hidx₁
    have hhandle := handleRecord_onward h hidx₁.1 bytes
    cases heq : handleRecord settings idx₁ bytes with
    | error stop =>
      rw [heq] at hhandle
      exact hhandle
    | ok result =>
      rw [heq] at hhandle
      exact hidx₁.trans hhandle) (h.stop .running (by decide)) (h.stop .assertion (by decide))
    fuel w idx ⟨hidx, .refl⟩
  cases heq : readBinlogHelper F B (handleRecord settings) fuel w idx with
  | error stop =>
    rw [heq] at hkeeps
    exact hkeeps
  | ok result =>
    rw [heq] at hkeeps
    exact hkeeps

end

/-! ### Programs -/

/-- The program keeps the invariant and makes changes of the relation, or stops as allowed. -/
def Keeps (I : Index → Prop) (R : Index → Index → Prop) (E : Stop → Prop) (m : Db α) : Prop :=
  Follows (fun s => I s.toIndex) (fun s t => R s.toIndex t.toIndex) E m

/-- The program leaves the entries as they are, or stops. -/
def Rests (m : Db α) : Prop :=
  Follows (fun _ => True) (fun s t => SameEntries s.toIndex t.toIndex) (· ≠ .underflow) m

theorem Rests.ends (hm : Rests m) (s : DatabaseObject) :
    Ends (fun _ t => SameEntries s.toIndex t.toIndex) (· ≠ .underflow) (m s) := by
  refine (hm s trivial).imp fun _ t ht => ?_
  obtain ⟨-, hsteps⟩ := ht
  induction hsteps with
  | refl => exact .refl _
  | tail _ hstep ih => exact ih.trans hstep

theorem Rests.keeps (hm : Rests m) (h : IndexRules env.settings I R E) : Keeps I R E m := by
  intro s hs
  refine (hm.ends s).mono (fun _ t ht => ?_) h.stop
  obtain ⟨hI, hR⟩ := h.same s.toIndex t.toIndex ht hs
  exact ⟨hI, .single hR⟩

/-- Only value files and the number of questions asked may have changed. -/
def OnlyFiles (s t : DatabaseObject) : Prop :=
  ∃ files asked, t = { s with files := files, asked := asked }

theorem OnlyFiles.refl (s : DatabaseObject) : OnlyFiles s s := ⟨_, _, rfl⟩

theorem OnlyFiles.same (h : OnlyFiles s t) : SameEntries s.toIndex t.toIndex := by
  obtain ⟨files, asked, rfl⟩ := h
  exact .refl _

/-- The program asks, reads and writes value files and does nothing else, or stops. -/
def Asks (m : Db α) : Prop := Follows (fun _ => True) OnlyFiles (· ≠ .underflow) m

theorem Asks.ends (hm : Asks m) (s : DatabaseObject) :
    Ends (fun _ t => OnlyFiles s t) (· ≠ .underflow) (m s) := by
  refine (hm s trivial).imp fun _ t ht => ?_
  obtain ⟨-, hsteps⟩ := ht
  induction hsteps with
  | refl => exact .refl s
  | tail _ hstep ih =>
    obtain ⟨files, asked, rfl⟩ := ih
    obtain ⟨files', asked', rfl⟩ := hstep
    exact ⟨files', asked', rfl⟩

theorem Asks.rests (hm : Asks m) : Rests m :=
  fun s _ => (hm.ends s).imp fun _ _ ht => ⟨trivial, .single ht.same⟩

theorem Asks.keeps (hm : Asks m) (h : IndexRules env.settings I R E) : Keeps I R E m :=
  hm.rests.keeps h

/-- What the program does from a state that changes have led to. -/
theorem follows_from {J : DatabaseObject → Prop} {S : DatabaseObject → DatabaseObject → Prop}
    (hm : Follows J S E m) (ht : J t) (h : Relation.ReflTransGen S s t) :
    Ends (fun _ u => J u ∧ Relation.ReflTransGen S s u) E (m t) :=
  (hm t ht).imp fun _ _ hu => ⟨hu.1, h.trans hu.2⟩

/-- The same changes, when the rest of the state goes with the index. -/
theorem steps_of {idx idx' : Index} (f : Index → DatabaseObject) (hf : ∀ idx, (f idx).toIndex = idx)
    (h : Relation.ReflTransGen R idx idx') :
    Relation.ReflTransGen (fun s t : DatabaseObject => R s.toIndex t.toIndex) (f idx) (f idx') := by
  refine h.lift f fun idx₁ idx₂ hstep => ?_
  change R (f idx₁).toIndex (f idx₂).toIndex
  rw [hf, hf]
  exact hstep

theorem asks_lift {x : Run α} (hx : ∀ stop, x = .error stop → stop = .assertion) :
    Asks (liftM x) := by
  intro s _
  refine ends_lift.mpr ⟨fun _ _ => ⟨trivial, .refl⟩, fun stop hstop => ?_⟩
  rw [hx stop hstop]
  decide

theorem throw_bind {β : Type} {stop : Stop} {f : α → Db β} {J : DatabaseObject → Prop}
    {S : DatabaseObject → DatabaseObject → Prop} (hstop : E stop) :
    Follows J S E ((throw stop : Db α) >>= f) :=
  fun _ _ => hstop

theorem rests_modify {f : DatabaseObject → DatabaseObject}
    (h : ∀ s, SameEntries s.toIndex (f s).toIndex) : Rests (modify f : Db PUnit) :=
  Follows.modify (fun _ _ => trivial) fun s _ => h s

theorem asks_ask {answer : Nat → α} : Asks (ask answer) :=
  fun s _ => ⟨trivial, .single ⟨s.files, s.asked + 1, rfl⟩⟩

theorem asks_files {f : DatabaseObject → PlaceId → Option (List UInt8)} :
    Asks (modify fun db => { db with files := f db } : Db PUnit) :=
  Follows.modify (fun _ _ => trivial) fun s _ => ⟨f s, s.asked, rfl⟩

/-! ### Time and files -/

theorem ByteFile.write_error {f : ByteFile} {bytes : List UInt8} {stop : Stop}
    (h : f.write bytes = .error stop) : stop = .assertion := by
  rw [ByteFile.write] at h
  split at h
  · cases h
    rfl
  · cases h

theorem readPadded_error {f : ByteFile} {size : Nat} {stop : Stop}
    (h : readPadded ByteFile.read f size = .error stop) : stop = .assertion := by
  have hgood : ∀ {good : Nat} {stop : Stop},
      (if good = 0 then .ok ([], f) else f.read good) = .error stop → stop = .assertion := by
    intro good stop hread
    split at hread
    · cases hread
    · exact ByteFile.read_error hread
  rw [readPadded] at h
  split at h
  · next hread =>
    cases h
    exact hgood hread
  split at h
  · cases h
  split at h
  · next hread =>
    cases h
    exact ByteFile.read_error hread
  · cases h
  split at h
  · cases h
    rfl
  · cases h

theorem writeData_error {f : ByteFile} {bytes random : List UInt8} {stop : Stop}
    (h : writePadded (fun f bytes => Except.map (true, ·) (ByteFile.write f bytes))
      (fun f _ => .ok f) f bytes random = .error stop) : stop = .assertion := by
  have hwrite : ∀ {f : ByteFile} {bytes : List UInt8} {stop : Stop},
      Except.map (true, ·) (ByteFile.write f bytes) = .error stop → stop = .assertion := by
    intro f bytes stop hwrite
    cases heq : ByteFile.write f bytes with
    | error e =>
      rw [heq] at hwrite
      cases hwrite
      exact ByteFile.write_error heq
    | ok g =>
      rw [heq] at hwrite
      cases hwrite
  rw [writePadded] at h
  dsimp only at h
  split at h
  · next hfirst =>
    cases h
    split at hfirst
    · cases hfirst
    · exact hwrite hfirst
  · cases h
  split at h
  · cases h
  split at h
  · next hlast =>
    cases h
    exact hwrite hlast
  · cases h
  split at h
  · cases h
  · cases h

theorem getUnixtime_onlyAsks : Asks (getUnixtime env) :=
  asks_ask.bind fun _ => .pure _

theorem countTimePoint_onlyAsks : Asks (countTimePoint env) :=
  getUnixtime_onlyAsks.bind fun _ => Follows.get.bind fun _ => .pure _

theorem pruneBeforeTime_onlyAsks : Asks (pruneBeforeTime env) :=
  (countTimePoint_onlyAsks.bind fun _ => .pure _).bind fun _ => .pure _

theorem writingTime_onlyAsks : Asks (writingTime env) := by
  unfold writingTime
  split
  · exact .pure _
  · refine countTimePoint_onlyAsks.bind fun _ => Follows.get.bind fun _ => ?_
    dsimp only
    split
    · exact throw_bind (by decide)
    · split
      · exact .pure _
      · exact .pure _

theorem writeBinlog_rests (bytes : List UInt8) : Rests (writeBinlog env bytes) := by
  refine asks_ask.rests.bind fun written => Follows.get_bind fun s _ => ?_
  dsimp only
  split
  · exact ⟨trivial, .refl⟩
  · cases written with
    | none =>
      rw [ends_bind, ends_lift]
      refine ⟨fun _ _ => ⟨trivial, .single ⟨rfl, rfl, rfl, rfl, rfl⟩⟩, fun stop hstop => ?_⟩
      rw [ByteFile.write_error hstop]
      decide
    | some n => exact ⟨trivial, .single ⟨rfl, rfl, rfl, rfl, rfl⟩⟩

theorem closeBinlog_rests : Rests closeBinlog := rests_modify fun _ => ⟨rfl, rfl, rfl, rfl, rfl⟩

theorem writeBundle_rests (header list : List UInt8) : Rests (writeBundle env header list) := by
  have hend : ∀ good : Bool, Rests (do
      if good then
        modify fun db => { db with
          binlogExcessLength := db.binlogExcessLength + (header.length + list.length) }
        return Error.noError
      closeBinlog
      return .io .binlog) := by
    intro good
    split
    · refine Follows.bind (rests_modify ?_) fun _ => .pure _
      exact fun _ => ⟨rfl, rfl, rfl, rfl, rfl⟩
    · exact closeBinlog_rests.bind fun _ => .pure _
  refine (writeBinlog_rests header).bind fun good => ?_
  dsimp only
  split
  · exact (writeBinlog_rests list).bind hend
  · exact hend good

theorem writeMultiRemove_rests : Rests (writeMultiRemove env) := by
  refine Follows.get_bind fun s _ => ?_
  dsimp only
  split
  · exact show Stop.assertion ≠ .underflow by decide
  split
  · exact ⟨trivial, .refl⟩
  · rw [ends_bind, ends_set]
    exact follows_from (writeBundle_rests _ _) trivial (.single ⟨rfl, rfl, rfl, rfl, rfl⟩)

theorem writeMultiRemoveLazy_rests : Rests (writeMultiRemoveLazy env) := by
  refine Follows.get.bind fun _ => ?_
  split
  · exact writeMultiRemove_rests.discard
  · exact .pure _

/-! ### Values -/

theorem readValueData_onlyAsks (place : PlaceId) (size : Nat) :
    Asks (readValueData env place size) := by
  refine asks_ask.bind fun _ => Follows.get.bind fun _ => ?_
  split
  · exact Follows.bind (asks_lift fun _ => readPadded_error) fun _ => .pure _
  · exact Follows.throw (by decide)
  · exact .pure _

theorem writeValueData_onlyAsks (place : PlaceId) (bytes : List UInt8) :
    Asks (writeValueData env place bytes) := by
  refine asks_ask.bind fun _ => Follows.bind (asks_lift fun _ => writeData_error) fun _ => ?_
  exact asks_ask.bind fun _ => asks_files.bind fun _ => .pure _

theorem removeFile_onlyAsks (place : PlaceId) : Asks (removeFile env place) := by
  have hend : Asks (do
      return if (← MonadState.get).files place = none then Error.noError else .io (.place place)) :=
    Follows.get.bind fun _ => .pure _
  refine asks_ask.bind fun removed => ?_
  dsimp only
  split
  · exact asks_files.bind fun _ => hend
  · exact hend

theorem holdsValue_onlyAsks (already : Entry) (value : TaggedValue) (checksum : UInt32) :
    Asks (holdsValue env already value checksum) := by
  unfold holdsValue
  split
  · exact (readValueData_onlyAsks _ _).bind fun _ => .pure _
  · exact .pure _

theorem holdsEntry_onlyAsks (already entry : Entry) : Asks (holdsEntry env already entry) := by
  unfold holdsEntry
  split
  · exact (readValueData_onlyAsks _ _).bind fun _ => (readValueData_onlyAsks _ _).bind fun _ => .pure _
  · exact .pure _

theorem freePlace_onlyAsks : Asks (freePlace env) := by
  refine asks_ask.bind fun _ => Follows.get.bind fun _ => ?_
  dsimp only
  split
  · exact throw_bind (by decide)
  · exact .pure _

theorem forget_rests (key : Key) : Rests (forget key) :=
  rests_modify fun _ => ⟨rfl, rfl, rfl, rfl, rfl⟩

section
variable (h : IndexRules env.settings I R E)
include h

/-! ### Accesses -/

theorem foldl_setUseTime_onward {idx : Index} (hidx : I idx) (list : List Key) (useTime : UInt64) :
    Onward I R idx (list.foldl (·.setUseTime · useTime) idx) := by
  induction list generalizing idx with
  | nil => exact ⟨hidx, .refl⟩
  | cons key list ih =>
    have haccess := onward_of (h.access idx key useTime hidx)
    exact haccess.trans (ih haccess.1)

theorem writeMultiAccessBlock_keeps : Keeps I R E (writeMultiAccessBlock env) := by
  have hstop : E .assertion := h.stop _ (by decide)
  unfold writeMultiAccessBlock
  split
  · exact throw_bind hstop
  refine Follows.get.bind fun _ => ?_
  split
  · exact throw_bind hstop
  refine (countTimePoint_onlyAsks.keeps h).bind fun time => Follows.get_bind fun s hs => ?_
  rw [ends_bind, ends_set]
  have htime := h.same s.toIndex { s.toIndex with time } ⟨rfl, rfl, rfl, rfl, rfl⟩ hs
  have hlist := foldl_setUseTime_onward h htime.1 s.accessed.toList time.relative
  have hsteps := steps_of (fun idx => { s with toIndex := idx, accessed := ∅ }) (fun _ => rfl) hlist.2
  exact follows_from ((writeBundle_rests _ _).keeps h) hlist.1 (.head htime.2 hsteps)

theorem writeMultiAccess_keeps : Keeps I R E (writeMultiAccess env) := by
  refine Follows.get.bind fun _ => ?_
  split
  · exact .pure _
  · exact writeMultiAccessBlock_keeps h

theorem writeBundles_keeps : Keeps I R E (writeBundles env) := by
  refine Follows.bind (writeMultiRemove_rests.keeps h).discard fun _ => ?_
  split
  · exact (writeMultiAccess_keeps h).discard
  · exact .pure _

theorem recordEntryAccess_keeps (key : Key) : Keeps I R E (recordEntryAccess env key) := by
  unfold recordEntryAccess
  split
  · refine Follows.bind ((rests_modify ?_).keeps h) fun _ => Follows.get.bind fun _ => ?_
    · exact fun _ => ⟨rfl, rfl, rfl, rfl, rfl⟩
    · split
      · exact (writeMultiAccess_keeps h).discard
      · exact .pure _
  · exact .pure _

/-! ### Storing and removing -/

theorem remove_keeps (key : Key) : Keeps I R E (remove env key) := by
  refine Follows.get.bind fun db => ?_
  split
  · exact .pure _
  · refine Follows.bind ((rests_modify ?_).keeps h) fun _ => ?_
    · exact fun _ => ⟨rfl, rfl, rfl, rfl, rfl⟩
    refine (writeMultiRemoveLazy_rests.keeps h).bind fun _ => Follows.get_bind fun s hs => ?_
    rw [ends_bind, ends_lift_iff]
    refine (h.erase s.toIndex key hs).imp fun idx hidx => ?_
    rw [ends_bind, ends_set]
    exact follows_from ((removeFile_onlyAsks _).keeps h) hidx.1 (.single hidx.2)

theorem writeStore_keeps (record : Store) : Keeps I R E (writeStore env record) := by
  refine Follows.bind ((writeBinlog_rests _).keeps h) fun written => ?_
  split
  · refine Follows.get_bind fun s hs => ?_
    rw [ends_bind, ends_lift_iff]
    refine (processRecordStore_onward h hs record).imp fun result hresult => ?_
    obtain ⟨idx, applied⟩ := result
    cases applied with
    | false => exact h.stop .assertion (by decide)
    | true =>
      exact ⟨hresult.1, steps_of (fun idx => { s with toIndex := idx }) (fun _ => rfl) hresult.2⟩
  · exact Follows.bind (closeBinlog_rests.keeps h) fun _ => .pure _

theorem writeKeyPlace_keeps (key : Key) (value : TaggedValue) (checksum : UInt32) :
    Keeps I R E (writeKeyPlace env key value checksum) := by
  have hend : ∀ (record : Store) (place : PlaceId), Keeps I R E (do
      return if ← writeStore env record then some place else none) :=
    fun record place => Follows.bind (writeStore_keeps h record) fun _ => .pure _
  refine Follows.bind (writingTime_onlyAsks.keeps h) fun time => ?_
  dsimp only
  split
  · exact throw_bind (h.stop .assertion (by decide))
  refine Follows.get.bind fun db => ?_
  split
  · refine Follows.bind ((holdsValue_onlyAsks _ _ _).keeps h) fun same => ?_
    split
    · exact .pure _
    · exact hend _ _
  · exact Follows.bind (freePlace_onlyAsks.keeps h) fun place => hend _ place

theorem put_keeps (key : Key) (value : TaggedValue) : Keeps I R E (Cache.put env key value) := by
  have hremove : ∀ error : Error, Keeps I R E (do
      discard (remove env key)
      return error) := fun _ => Follows.bind (remove_keeps h key).discard fun _ => .pure _
  unfold Cache.put
  split
  · exact remove_keeps h key
  refine Follows.bind ((forget_rests key).keeps h) fun _ => ?_
  refine Follows.bind (writeKeyPlace_keeps h key value _) fun result => ?_
  split
  · exact Follows.bind (recordEntryAccess_keeps h key) fun _ => .pure _
  · refine Follows.bind (asks_ask.keeps h) fun opened => ?_
    split
    · exact hremove _
    · exact hremove _
    · exact Follows.throw (h.stop .assertion (by decide))
    · refine Follows.bind ((writeValueData_onlyAsks _ _).keeps h) fun written => ?_
      split
      · exact .pure _
      · exact hremove _

theorem writeExistingPlace_keeps (key : Key) (entry : Entry) :
    Keeps I R E (writeExistingPlace env key entry) := by
  have hend : ∀ (same : Bool) (record : Store), Keeps I R E (do
      if same then return Error.noError
      return if ← writeStore env record then .noError else .io .binlog) := by
    intro same record
    split
    · exact .pure _
    · exact Follows.bind (writeStore_keeps h record) fun _ => .pure _
  refine Follows.bind (writingTime_onlyAsks.keeps h) fun time => ?_
  dsimp only
  split
  · exact throw_bind (h.stop .assertion (by decide))
  refine Follows.get.bind fun db => ?_
  split
  · exact Follows.bind ((holdsEntry_onlyAsks _ _).keeps h) fun same => hend same _
  · exact hend false _

theorem get_keeps (key : Key) : Keeps I R E (Cache.get env key) := by
  refine Follows.get.bind fun db => ?_
  split
  · exact .pure _
  · refine Follows.bind ((readValueData_onlyAsks _ _).keeps h) fun bytes => ?_
    split
    · exact Follows.bind (remove_keeps h key).discard fun _ => .pure _
    · exact Follows.bind (recordEntryAccess_keeps h key) fun _ => .pure _

theorem putIfEmpty_keeps (key : Key) (value : TaggedValue) :
    Keeps I R E (putIfEmpty env key value) := by
  refine Follows.get.bind fun db => ?_
  split
  · exact .pure _
  · exact put_keeps h key value

theorem copyIfEmpty_keeps (source target : Key) : Keeps I R E (copyIfEmpty env source target) := by
  refine Follows.get.bind fun db => ?_
  split
  · exact .pure _
  · exact Follows.bind (get_keeps h source) fun value => put_keeps h target value

theorem moveIfEmpty_keeps (source target : Key) : Keeps I R E (moveIfEmpty env source target) := by
  refine Follows.get.bind fun db => ?_
  split
  · exact .pure _
  refine Follows.get.bind fun db => ?_
  split
  · exact .pure _
  · next entry _ =>
    refine Follows.bind ((rests_modify ?_).keeps h) fun _ => Follows.get_bind fun s hs => ?_
    · exact fun _ => ⟨rfl, rfl, rfl, rfl, rfl⟩
    rw [ends_bind, ends_lift_iff]
    refine (h.erase s.toIndex source hs).imp fun idx hidx => ?_
    rw [ends_bind, ends_set]
    refine follows_from (Follows.bind (writeMultiRemove_rests.keeps h) fun error => ?_) hidx.1
      (.single hidx.2)
    split
    · exact Follows.bind ((forget_rests target).keeps h) fun _ => writeExistingPlace_keeps h target entry
    · exact .pure _

/-! ### Clearing -/

theorem forM_remove_keeps (keys : List Key) :
    Keeps I R E (keys.forM fun key => discard (remove env key)) :=
  Follows.forM keys fun key => (remove_keeps h key).discard

theorem clearStaleChunk_keeps : Keeps I R E (clearStaleChunk env) := by
  refine Follows.get.bind fun db => ?_
  dsimp only
  split
  · exact .pure _
  · refine Follows.bind (forM_remove_keeps h _) fun _ => (rests_modify ?_).keeps h
    exact fun _ => ⟨rfl, rfl, rfl, rfl, rfl⟩

theorem clearStaleNow_keeps (keys : List Key) : Keeps I R E (clearStaleNow env keys) := by
  have hsame : ∀ f : DatabaseObject → List Key, Keeps I R E
      (modify fun db => { db with stale := f db } : Db PUnit) := by
    intro f
    refine (rests_modify ?_).keeps h
    exact fun _ => ⟨rfl, rfl, rfl, rfl, rfl⟩
  cases keys with
  | nil => exact .pure _
  | cons front keys =>
    refine Follows.bind (hsame _) fun _ => ?_
    exact Follows.bind (forM_remove_keeps h (front :: keys)) fun _ => hsame _

theorem clearStaleDelayed_keeps : Keeps I R E (clearStaleDelayed env) := by
  refine Follows.get.bind fun db => ?_
  split
  · refine Follows.bind ((rests_modify ?_).keeps h) fun _ => clearStaleChunk_keeps h
    exact fun _ => ⟨rfl, rfl, rfl, rfl, rfl⟩
  · exact .pure _

omit h in
theorem mapEntries_onlyAsks : Asks (mapEntries env) := Follows.get.bind fun _ => asks_ask

theorem clearByTag_keeps (tag : UInt8) : Keeps I R E (clearByTag env tag) := by
  refine Follows.get.bind fun db => Follows.bind (mapEntries_onlyAsks.keeps h) fun entries => ?_
  refine Follows.bind ((rests_modify ?_).keeps h) fun _ => ?_
  · exact fun _ => ⟨rfl, rfl, rfl, rfl, rfl⟩
  dsimp only
  split
  · exact Follows.bind (clearStaleChunk_keeps h) fun _ => .pure _
  · exact .pure _

theorem clearAllStale_keeps (fuel : Nat) : Keeps I R E (clearAllStale env fuel) := by
  induction fuel with
  | zero => exact Follows.throw (h.stop .running (by decide))
  | succ fuel ih =>
    refine Follows.get.bind fun db => ?_
    split
    · exact .pure _
    · exact Follows.bind (clearStaleChunk_keeps h) fun _ => ih

theorem waitForCleaner_keeps : Keeps I R E (waitForCleaner env) :=
  Follows.get.bind fun _ => clearAllStale_keeps h _

/-! ### Opening and closing -/

theorem clearState_keeps : Keeps I R E clearState :=
  Follows.modify (fun s _ => (h.clear s.toIndex).1) fun s _ => (h.clear s.toIndex).2

theorem close_keeps : Keeps I R E (close env) := by
  refine Follows.get.bind fun db => ?_
  split
  · refine Follows.bind (writeBundles_keeps h) fun _ => ?_
    exact Follows.bind (closeBinlog_rests.keeps h) fun _ => clearState_keeps h
  · exact clearState_keeps h

omit h in
theorem readHeader_rests : Rests (readHeader env) := by
  refine Follows.get_bind fun s _ => ?_
  split
  · exact ⟨trivial, .refl⟩
  rw [ends_bind, ends_lift]
  refine ⟨fun read _ => ?_, fun stop hstop => ?_⟩
  · rw [ends_bind, ends_set]
    split
    · exact ⟨trivial, .single ⟨rfl, rfl, rfl, rfl, rfl⟩⟩
    · exact ⟨trivial, .single ⟨rfl, rfl, rfl, rfl, rfl⟩⟩
  · rw [ByteFile.read_error hstop]
    decide

omit h in
theorem writeHeader_rests : Rests (writeHeader env) := by
  have hend : ∀ system : UInt32, Rests (do
      modify fun db => { db with time := { relative := system.toUInt64, system } }
      writeBinlog env (encodeHeader env.settings.trackEstimatedTime system)) := by
    intro system
    refine Follows.bind (rests_modify ?_) fun _ => writeBinlog_rests _
    exact fun _ => ⟨rfl, rfl, rfl, rfl, rfl⟩
  unfold writeHeader
  dsimp only
  split
  · exact getUnixtime_onlyAsks.rests.bind hend
  · exact hend 0

theorem adjustRelativeTime_keeps : Keeps I R E (adjustRelativeTime env) := by
  unfold adjustRelativeTime
  split
  · exact .pure _
  refine Follows.bind (getUnixtime_onlyAsks.keeps h) fun now => Follows.get.bind fun db => ?_
  split
  · exact (writeMultiAccessBlock_keeps h).discard
  · exact .pure _

theorem readBinlog_keeps : Keeps I R E (readBinlog env) := by
  unfold readBinlog
  split
  · exact throw_bind (h.stop .assertion (by decide))
  refine Follows.get_bind fun s hs => ?_
  rw [ends_bind, ends_lift_iff]
  refine (readBinlogHelper_onward h hs _).imp fun result hresult => ?_
  obtain ⟨wrapper, idx⟩ := result
  rw [ends_bind, ends_set]
  have hsame := h.same idx idx (.refl idx) hresult.1
  have hsteps := steps_of (fun idx => { s with toIndex := idx }) (fun _ => rfl) hresult.2
  exact follows_from (adjustRelativeTime_keeps h) hresult.1 (hsteps.tail hsame.2)

theorem openBinlog_keeps (mode : Mode) (stored : List UInt8) :
    Keeps I R E (openBinlog env mode stored) := by
  have hread : ∀ headerResult : Bool, Keeps I R E (do
      if !headerResult then return OpenResult.failed
      modify fun db => { db with hasKey := true }
      readBinlog env
      return .success) := by
    intro headerResult
    split
    · exact .pure _
    refine Follows.bind ((rests_modify ?_).keeps h) fun _ => ?_
    · exact fun _ => ⟨rfl, rfl, rfl, rfl, rfl⟩
    · exact Follows.bind (readBinlog_keeps h) fun _ => .pure _
  refine Follows.bind (closeBinlog_rests.keeps h) fun _ => ?_
  refine Follows.bind (asks_ask.keeps h) fun opened => ?_
  split
  · refine Follows.bind ((rests_modify ?_).keeps h) fun _ => Follows.get.bind fun db => ?_
    · exact fun _ => ⟨rfl, rfl, rfl, rfl, rfl⟩
    dsimp only
    split
    · exact Follows.bind (readHeader_rests.keeps h) hread
    · exact Follows.bind (writeHeader_rests.keeps h) hread
  · exact .pure _

theorem openNewBinlog_keeps : Keeps I R E (openNewBinlog env) := by
  refine Follows.bind (asks_ask.keeps h) fun written => ?_
  split
  · exact .pure _
  refine Follows.bind ((rests_modify ?_).keeps h) fun _ => ?_
  · exact fun _ => ⟨rfl, rfl, rfl, rfl, rfl⟩
  · exact Follows.bind (openBinlog_keeps h .write []) fun result => by split <;> exact .pure _

theorem openSomeBinlog_keeps (stored : List UInt8) : Keeps I R E (openSomeBinlog env stored) := by
  refine Follows.bind (openBinlog_keeps h .readAppend stored) fun result => ?_
  split
  · exact .pure _
  · exact openNewBinlog_keeps h
  · exact .pure _
  · split
    · exact openNewBinlog_keeps h
    · exact .pure _

theorem open_keeps (stored : List UInt8) (files : PlaceId → Option (List UInt8)) :
    Keeps I R E (Cache.open env stored files) := by
  refine Follows.bind (close_keeps h) fun _ => Follows.bind ((rests_modify ?_).keeps h) fun _ => ?_
  · exact fun _ => ⟨rfl, rfl, rfl, rfl, rfl⟩
  refine Follows.bind (openSomeBinlog_keeps h stored) fun error => ?_
  dsimp only
  split
  · exact Follows.bind (close_keeps h) fun _ => .pure _
  · exact .pure _

theorem clear_keeps : Keeps I R E (clear env) := by
  have hend : ∀ hasKey : Bool, Keeps I R E (do
      if !(← ask env.versionWritten) then return Error.io .version
      if !hasKey then return .noError
      Cache.open env [] fun _ => none) := by
    intro hasKey
    refine Follows.bind (asks_ask.keeps h) fun written => ?_
    split
    · exact .pure _
    split
    · exact .pure _
    · exact open_keeps h _ _
  refine Follows.get.bind fun db => ?_
  dsimp only
  split
  · exact Follows.bind (close_keeps h) fun _ => hend _
  · exact hend _

theorem call_keeps (hprune : Keeps I R E (prune env)) (call : Call) :
    Keeps I R E (call.run env) := by
  cases call with
  | «open» stored files => exact (open_keeps h stored files).discard
  | close => exact close_keeps h
  | put key value => exact (put_keeps h key value).discard
  | putIfEmpty key value => exact (putIfEmpty_keeps h key value).discard
  | copyIfEmpty source target => exact (copyIfEmpty_keeps h source target).discard
  | moveIfEmpty source target => exact (moveIfEmpty_keeps h source target).discard
  | get key => exact (get_keeps h key).discard
  | remove key => exact (remove_keeps h key).discard
  | clear => exact (clear_keeps h).discard
  | clearByTag tag => exact (clearByTag_keeps h tag).discard
  | clearStaleDelayed => exact clearStaleDelayed_keeps h
  | waitForCleaner => exact waitForCleaner_keeps h
  | writeBundles => exact writeBundles_keeps h
  | prune => exact hprune

/-- What is known of a run of calls from a new object. -/
theorem calls_keeps (hprune : Keeps I R E (prune env)) (hempty : I {}) (calls : List Call) :
    Ends (fun _ t => I t.toIndex ∧ Relation.ReflTransGen R {} t.toIndex) E
      ((calls.forM (Call.run env)) {}) := by
  refine (Follows.forM calls (fun call => call_keeps h hprune call) {} hempty).imp ?_
  exact fun _ t ht => ⟨ht.1, ht.2.lift DatabaseObject.toIndex fun _ _ hstep => hstep⟩

end

end TelegramClient.Cache
