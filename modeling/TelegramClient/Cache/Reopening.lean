import Mathlib
import TelegramClient.Cache.Replay

/-! Closing the database and opening it anew: the binlog that is left gives the entries back. -/

namespace TelegramClient.Cache

open Program

variable {settings : Settings} {env : Environment} {s t u : DatabaseObject} {key : Key}
  {system : UInt32} {rs : List Record} {torn : Torn} {left : List UInt8}

/-! ### Reading the log -/

/-- What a reader finds in the bytes behind a log. -/
def leftFrames (settings : Settings) (left : List UInt8) : List (List UInt8) :=
  (binlogFraming settings.trackEstimatedTime settings.maxBundledRecords).frames (wholeBlocks left)

def leftRecords (settings : Settings) (left : List UInt8) : List Record :=
  decodeAll settings.trackEstimatedTime (leftFrames settings left)

/-- A reader gets through the bytes behind a log. -/
structure Behind (settings : Settings) (left : List UInt8) : Prop where
  accepted : ∀ r ∈ leftRecords settings left, r.Accepted settings
  fits : Fits (binlogFraming settings.trackEstimatedTime settings.maxBundledRecords)
    settings.readBlockSize (wholeBlocks left)

theorem leftFrames_nil (settings : Settings) : leftFrames settings [] = [] :=
  Framing.frames_of_stuck Framing.stuck_nil

theorem behind_nil (settings : Settings) : Behind settings [] := by
  have hrest : (binlogFraming settings.trackEstimatedTime settings.maxBundledRecords).rest
      (wholeBlocks []) = [] := Framing.rest_of_stuck Framing.stuck_nil
  refine ⟨fun r hr => ?_, fun f hf => ?_, fun _ => ?_⟩
  · rw [leftRecords, leftFrames_nil] at hr
    cases hr
  · have hnil := leftFrames_nil settings
    rw [leftFrames] at hnil
    rw [hnil] at hf
    cases hf
  · rw [hrest]
    exact Nat.zero_le _

theorem readHeader_log
    (hdata : s.binlog = { data := logBytes env.settings system rs ++ left }) :
    readHeader env s = .ok (true, { s with
      binlog := { data := logBytes env.settings system rs ++ left, offset := 16 }
      time := { relative := system.toUInt64, system } }) := by
  have hlength := length_encodeHeader env.settings.trackEstimatedTime system
  have hread : s.binlog.read sizeofBasicHeader =
      .ok (encodeHeader env.settings.trackEstimatedTime system,
        { data := logBytes env.settings system rs ++ left, offset := 16 }) := by
    rw [hdata, ByteFile.read_eq rfl rfl]
    · refine congrArg
        (fun bytes => Except.ok (bytes, ByteFile.mk (logBytes env.settings system rs ++ left) 16)) ?_
      rw [List.drop_zero, logBytes, List.append_assoc]
      exact List.take_left' hlength
    · simp only [logBytes, List.length_append, hlength, sizeofBasicHeader]
      omega
  have htype : field (encodeHeader env.settings.trackEstimatedTime system) 0 1 = 0 := rfl
  have hflags : field (encodeHeader env.settings.trackEstimatedTime system) 1 3 =
      if env.settings.trackEstimatedTime then kTrackEstimatedTime else 0 := by
    rw [encodeHeader, List.append_assoc, List.cons_append, field_cons, field_leBytes]
    split <;> rfl
  have hsystem : field (encodeHeader env.settings.trackEstimatedTime system) 4 4 =
      system.toNat := by
    rw [encodeHeader, List.append_assoc, List.cons_append, field_cons, field_skip (by simp),
      length_leBytes, field_leBytes]
    exact Nat.mod_eq_of_lt system.toNat_lt
  have hgood : ¬((encodeHeader env.settings.trackEstimatedTime system).length ≠ sizeofBasicHeader ∨
      field (encodeHeader env.settings.trackEstimatedTime system) 0 1 ≠ 0 ∨
      env.settings.trackEstimatedTime ≠
        decide (field (encodeHeader env.settings.trackEstimatedTime system) 1 3 % 2 =
          kTrackEstimatedTime)) := by
    rw [hlength, htype, hflags]
    cases env.settings.trackEstimatedTime <;> decide
  have hoffset : ¬s.binlog.offset ≠ 0 := by rw [hdata]; simp
  simp only [readHeader, bind, StateT.bind, Except.bind, get, getThe, MonadStateOf.get, StateT.get,
    pure, Except.pure, hoffset, if_false, liftM, monadLift, MonadLift.monadLift, StateT.lift,
    hread, set, StateT.set, hgood, hsystem, UInt32.ofNat_toNat]
  rfl

/-- The handlers take records that they accept one by one. -/
theorem feed_decoded {idx : Index} {fs : List (List UInt8)}
    (hfs : ∀ f ∈ fs,
      (binlogFraming settings.trackEstimatedTime settings.maxBundledRecords).IsFrame f)
    (haccepted : ∀ r ∈ decodeAll settings.trackEstimatedTime fs, r.Accepted settings)
    (hidx : idx.Accounted) :
    ∃ idx', feed (handleRecord settings) idx fs = .ok (idx', []) ∧
      idx.Changed settings idx' (logChanges settings.trackEstimatedTime idx.time.relative
        (decodeAll settings.trackEstimatedTime fs)) := by
  induction fs generalizing idx with
  | nil => exact ⟨idx, rfl, .refl hidx⟩
  | cons f fs ih =>
    obtain ⟨r, hr⟩ := decodeRecord_of_isFrame (hfs f List.mem_cons_self)
    rw [decodeAll_cons hr] at haccepted ⊢
    obtain ⟨idx₁, heq₁, hch₁⟩ := processRecord_accepted hidx (haccepted r List.mem_cons_self)
    obtain ⟨idx₂, heq₂, hch₂⟩ := ih (fun g hg => hfs g (List.mem_cons_of_mem _ hg))
      (fun q hq => haccepted q (List.mem_cons_of_mem _ hq)) hch₁.accounted
    refine ⟨idx₂, ?_, ?_⟩
    · simp only [feed, handleRecord, hr, heq₁]
      exact heq₂
    · have heach : ∀ key, Record.changes settings.trackEstimatedTime idx₁.time.relative key =
          Record.changes settings.trackEstimatedTime idx.time.relative key :=
        fun key => Record.changes_tracked key hch₁.relative
      have hch := hch₁.trans hch₂
      unfold logChanges at hch ⊢
      simpa only [List.flatMap_cons, heach] using hch

/-- The reader gets through the log and what is behind it, and leaves what the records tell. -/
theorem readBinlogHelper_log {idx : Index} (hblocks : BlocksSuffice settings)
    (hrs : ∀ r ∈ rs, Readable settings r) (hbehind : Behind settings left) (hidx : idx.Accounted)
    (htime : idx.time.relative = system.toUInt64) :
    ∃ w idx', readBinlogHelper (binlogFraming settings.trackEstimatedTime settings.maxBundledRecords)
        settings.readBlockSize (handleRecord settings)
        ((logBytes settings system rs ++ left).length + 2)
        (.create { data := logBytes settings system rs ++ left, offset := 16 } 0) idx =
          .ok (w, idx') ∧
      w.binlog = { data := logBytes settings system rs ++ left
                   offset := (logBytes settings system rs).length +
                    (leftFrames settings left).flatten.length } ∧
      idx.Changed settings idx' (logChanges settings.trackEstimatedTime system.toUInt64
        (rs ++ leftRecords settings left)) := by
  have hlimit := settings.maxBundledRecords_lt
  have hheader := length_encodeHeader settings.trackEstimatedTime system
  have hwf : ∀ r ∈ rs, r.WellFormed settings.trackEstimatedTime settings.maxBundledRecords :=
    fun r hr => (hrs r hr).wellFormed
  obtain ⟨F, hF⟩ : ∃ F, F = binlogFraming settings.trackEstimatedTime settings.maxBundledRecords :=
    ⟨_, rfl⟩
  obtain ⟨bytes, hbytes⟩ : ∃ bytes, bytes = encodeAll settings.trackEstimatedTime rs ++ left :=
    ⟨_, rfl⟩
  have hdata : logBytes settings system rs ++ left =
      encodeHeader settings.trackEstimatedTime system ++ bytes := by
    rw [logBytes, List.append_assoc, hbytes]
  have hframe : ∀ f ∈ rs.map (Record.encode settings.trackEstimatedTime), F.IsFrame f :=
    hF ▸ isFrame_of_mem_encode hlimit hwf
  have hwhole : wholeBlocks bytes = (rs.map (Record.encode settings.trackEstimatedTime)).flatten ++
      wholeBlocks left := by
    rw [hbytes, wholeBlocks_append (length_encodeAll_mod hlimit hwf), encodeAll_eq]
  have hframes : F.frames (wholeBlocks bytes) =
      rs.map (Record.encode settings.trackEstimatedTime) ++ leftFrames settings left := by
    rw [hwhole, Framing.frames_flatten_append hframe, leftFrames, hF]
  have hrest : F.rest (wholeBlocks bytes) = F.rest (wholeBlocks left) := by
    rw [hwhole, Framing.rest_flatten_append hframe]
  have hrecords : decodeAll settings.trackEstimatedTime (F.frames (wholeBlocks bytes)) =
      rs ++ leftRecords settings left := by
    rw [hframes, decodeAll_append, decodeAll_encode hlimit hwf, leftRecords]
  rw [hdata]
  obtain ⟨file, hfile⟩ : ∃ file : ByteFile, file =
      { data := encodeHeader settings.trackEstimatedTime system ++ bytes, offset := 16 } := ⟨_, rfl⟩
  have hsize : file.size = 16 + (wholeBlocks bytes).length := by
    rw [hfile]
    exact size_file hheader bytes
  have hoffset : file.offset = 16 := by rw [hfile]
  have hle : file.offset ≤ file.size := by
    rw [hsize, hoffset]
    exact Nat.le_add_right _ _
  have hpend := pending_create (by rw [hoffset]) hle F 0 (.inl rfl)
  have hunread : (file.data.take file.size).drop file.offset = wholeBlocks bytes := by
    rw [hfile]
    exact unread_file hheader bytes
  rw [hunread] at hpend
  have hB : 0 < settings.readBlockSize := by
    refine lt_of_lt_of_le ?_ hblocks.store
    cases settings.trackEstimatedTime <;> decide
  have hfit : Fits F settings.readBlockSize
      ((BinlogWrapper.create file 0).part ++ wholeBlocks bytes) := by
    have hleft := hbehind.fits
    rw [← hF] at hleft
    show Fits F settings.readBlockSize (wholeBlocks bytes)
    refine ⟨fun f hf => ?_, ?_⟩
    · rw [hframes, List.mem_append] at hf
      rcases hf with hf | hf
      · obtain ⟨r, hr, rfl⟩ := List.mem_map.mp hf
        exact (hrs r hr).short
      · rw [leftFrames, ← hF] at hf
        exact hleft.1 f hf
    · rw [hrest]
      exact hleft.2
  have haccepted : ∀ r ∈ decodeAll settings.trackEstimatedTime (F.frames (wholeBlocks bytes)),
      r.Accepted settings := by
    rw [hrecords]
    intro r hr
    rcases List.mem_append.mp hr with hr | hr
    · exact (hrs r hr).accepted
    · exact hbehind.accepted r hr
  obtain ⟨idx', hfeed, hchanged⟩ := feed_decoded
    (fun f hf => hF ▸ Framing.isFrame_of_mem_frames hf) haccepted hidx
  have hmodF : ∀ f, F.IsFrame f → f.length % 16 = 0 := hF ▸ framing_mod _ _
  have hheadF : F.header ≤ 16 := hF ▸ le_refl 16
  have hlength : (wholeBlocks bytes).length + 2 ≤
      (encodeHeader settings.trackEstimatedTime system ++ bytes).length + 2 := by
    rw [wholeBlocks, List.length_take, List.length_append]
    omega
  have hread := @readBinlogHelper_eq _ F _ (handleRecord settings) _ idx _ hmodF hheadF
    hblocks.whole hB hpend hfit _ hlength
  have hpart : (BinlogWrapper.create file 0).part ++ wholeBlocks bytes = wholeBlocks bytes := rfl
  rw [hpart, hfeed] at hread
  rcases hread with ⟨stop, hstop, -⟩ | ⟨idx₁, refused, w, hok, hread, hdone⟩
  · cases hstop
  · cases hok
    refine ⟨w, idx', ?_, ?_, ?_⟩
    · rw [← hF, ← hfile]
      exact hread
    · have hflat := congrArg List.length
        (Framing.flatten_frames_append_rest (F := F) (wholeBlocks bytes))
      rw [List.length_append, hframes, List.flatten_append, List.length_append] at hflat
      have htill : (BinlogWrapper.create file 0).till = 16 + (wholeBlocks bytes).length := hsize
      rw [hdone.binlog, htill]
      show ByteFile.mk file.data _ = _
      rw [hfile, ByteFile.mk.injEq]
      refine ⟨rfl, ?_⟩
      rw [logBytes, List.length_append, hheader, encodeAll_eq]
      simp only [List.flatten_nil, List.length_nil]
      omega
    · rw [← htime, ← hrecords]
      exact hchanged

/-- The header of the log was read or written, and nothing else. -/
structure Unread (settings : Settings) (system : UInt32) (rs : List Record) (left : List UInt8)
    (s : DatabaseObject) : Prop where
  isOpen : s.binlogOpen = true
  binlog : s.binlog = { data := logBytes settings system rs ++ left, offset := 16 }
  index : s.toIndex = { time := { relative := system.toUInt64, system } }
  removing : s.removing = ∅
  accessed : s.accessed = ∅
  readable : ∀ r ∈ rs, Readable settings r

/-- The log was read to its end, and what is behind it as far as it holds records. -/
structure JustRead (settings : Settings) (system : UInt32) (rs : List Record) (left : List UInt8)
    (s : DatabaseObject) : Prop where
  isOpen : s.binlogOpen = true
  binlog : s.binlog =
    { data := logBytes settings system rs ++ left
      offset := (logBytes settings system rs).length + (leftFrames settings left).flatten.length }
  map : ∀ key : Key, s.map[key]? = replayed settings system (rs ++ leftRecords settings left) key
  untracked : settings.trackEstimatedTime = false → s.time.relative = system.toUInt64
  removing : s.removing = ∅
  accessed : s.accessed = ∅
  readable : ∀ r ∈ rs, Readable settings r

/-- When no record is behind the log, the bytes there wait to be written over. -/
theorem JustRead.consistent (h : JustRead settings system rs left s)
    (hframes : leftFrames settings left = [])
    (hstart : torn.start ≤ (logBytes settings system rs).length)
    (htorn : torn.left (logBytes settings system rs).length = left) : Consistent settings torn s := by
  have hmap := h.map
  rw [leftRecords, hframes, decodeAll, List.filterMap_nil, List.append_nil] at hmap
  refine ⟨replayed settings system rs, ⟨system, rs, ⟨h.isOpen, ?_, ?_, hstart, h.readable, ?_⟩,
    fun key => ?_⟩, fun key => ⟨?_, fun _ => hmap key⟩⟩
  · rw [h.binlog, htorn]
  · rw [h.binlog, hframes]
    rfl
  · exact fun htracked => ⟨h.untracked htracked, h.accessed⟩
  · rw [h.removing, if_neg Std.ExtTreeSet.not_mem_empty]
  · rw [hmap]

/-- What reading a binlog leaves alone. -/
structure Beside (s t : DatabaseObject) : Prop where
  files : t.files = s.files
  stale : t.stale = s.stale

theorem Beside.refl (s : DatabaseObject) : Beside s s := ⟨rfl, rfl⟩

theorem Beside.trans (h : Beside s t) (h' : Beside t u) : Beside s u :=
  ⟨h'.files.trans h.files, h'.stale.trans h.stale⟩

theorem readBinlog_log {Q : Unit → DatabaseObject → Prop} {E : Stop → Prop}
    (hblocks : BlocksSuffice env.settings) (hbehind : Behind env.settings left)
    (hs : Unread env.settings system rs left s)
    (hadjust : ∀ t, JustRead env.settings system rs left t → Beside s t →
      Ends Q E (adjustRelativeTime env t)) :
    Ends Q E (readBinlog env s) := by
  have htime : s.toIndex.time.relative = system.toUInt64 := by rw [hs.index]
  have haccounted : s.toIndex.Accounted := by
    rw [hs.index]
    exact Index.accounted_empty _
  obtain ⟨w, idx, hread, hbinlog, hchanged⟩ :=
    readBinlogHelper_log hblocks hs.readable hbehind haccounted htime
  rw [readBinlog, if_neg (Nat.not_lt.mpr hblocks.store)]
  simp only [ends_bind, ends_get, hs.binlog, hread]
  rw [ends_lift]
  refine ⟨?_, fun stop hstop => by cases hstop⟩
  rintro _ ⟨⟩
  rw [ends_set]
  refine hadjust _ ⟨hs.isOpen, hbinlog, fun key => ?_, fun htracked => ?_, hs.removing, hs.accessed,
    hs.readable⟩ ⟨rfl, rfl⟩
  · have hnone : s.toIndex.map[key]? = none := by
      rw [hs.index]
      exact Std.ExtTreeMap.getElem?_empty
    rw [replayed, ← hnone]
    exact hchanged.getElem? key
  · rw [← htime]
    exact congrArg EstimatedTimePoint.relative (hchanged.time htracked)

/-- Nothing is known of the entries. -/
structure Emptied (s : DatabaseObject) : Prop where
  index : s.toIndex = {}
  removing : s.removing = ∅
  accessed : s.accessed = ∅

/-- What lies under the path of the binlog is nothing or a whole log. -/
def Clean (settings : Settings) (stored : List UInt8) : Prop :=
  stored = [] ∨ ∃ system rs, stored = logBytes settings system rs ∧ ∀ r ∈ rs, Readable settings r

theorem openBinlog_log {Q : OpenResult → DatabaseObject → Prop} {E : Stop → Prop}
    (hs : Emptied s) (hopened : env.opened s.asked = .success)
    (hrs : ∀ r ∈ rs, Readable env.settings r)
    (hread : ∀ t, Unread env.settings system rs left t → Beside s t →
      Ends (fun _ u => Q .success u) E (readBinlog env t)) :
    Ends Q E (openBinlog env .readAppend (logBytes env.settings system rs ++ left) s) := by
  have hsize : 0 < ByteFile.size { data := logBytes env.settings system rs ++ left } := by
    have hheader := length_encodeHeader env.settings.trackEstimatedTime system
    simp only [ByteFile.size, logBytes, List.length_append, hheader, kBlockSize]
    omega
  simp only [openBinlog, closeBinlog, ends_bind, ends_modify, ends_ask, hopened]
  simp only [ends_get, reduceCtorEq, if_false, false_or, true_and, hsize, if_true, ends_bind]
  rw [readHeader_log rfl]
  simp only [ends_ok, Bool.not_true, Bool.false_eq_true, if_false, ends_bind, ends_modify, ends_pure]
  refine hread _ ⟨rfl, rfl, ?_, hs.removing, hs.accessed, hrs⟩ ⟨rfl, rfl⟩
  have hindex := hs.index
  simp only [hindex]

theorem writeHeader_new (hs : Emptied s) (hopen : s.binlogOpen = true) (hbinlog : s.binlog = {})
    (hwritten : ∀ n, env.written n = none) :
    Ends (fun good t => good = true ∧ Beside s t ∧ ∃ system, Unread env.settings system [] [] t)
      (fun _ => False) (writeHeader env s) := by
  have hwrite : ∀ system : UInt32,
      ByteFile.write {} (encodeHeader env.settings.trackEstimatedTime system) =
        .ok { data := logBytes env.settings system [] ++ [], offset := 16 } := by
    intro system
    have hlength := length_encodeHeader env.settings.trackEstimatedTime system
    rw [ByteFile.write_eq (by rw [hlength]; rfl) rfl, hlength]
    simp [logBytes, encodeAll]
  have hend : ∀ (system : UInt32) (asked : Nat), Ends
      (fun good t => good = true ∧ Beside s t ∧ ∃ system, Unread env.settings system [] [] t)
      (fun _ => False) (writeBinlog env (encodeHeader env.settings.trackEstimatedTime system)
        { s with time := { relative := system.toUInt64, system }, asked }) := by
    intro system asked
    simp only [writeBinlog, ends_bind, ends_ask, ends_get, hopen, Bool.true_eq_false, if_false,
      hwritten, hbinlog, hwrite, ends_lift]
    refine ⟨?_, fun stop hstop => by cases hstop⟩
    rintro _ ⟨⟩
    refine ⟨rfl, ⟨rfl, rfl⟩, system, rfl, rfl, ?_, hs.removing, hs.accessed, fun _ h => by cases h⟩
    have hindex := hs.index
    simp only [hindex]
  simp only [writeHeader]
  split
  · simp only [getUnixtime, ends_bind, ends_ask, ends_pure, ends_modify]
    exact hend _ _
  · exact hend 0 s.asked

theorem openBinlog_new {Q : OpenResult → DatabaseObject → Prop} {E : Stop → Prop}
    (hs : Emptied s) (hopened : env.opened s.asked = .success) (hwritten : ∀ n, env.written n = none)
    (hread : ∀ system t, Unread env.settings system [] [] t → Beside s t →
      Ends (fun _ u => Q .success u) E (readBinlog env t)) :
    Ends Q E (openBinlog env .readAppend [] s) := by
  have hsize : ¬0 < ByteFile.size { data := [] } := by decide
  simp only [openBinlog, closeBinlog, ends_bind, ends_modify, ends_ask, hopened]
  simp only [ends_get, reduceCtorEq, if_false, false_or, true_and, hsize, ends_bind]
  refine Ends.mono (writeHeader_new ?_ ?_ ?_ hwritten) ?_ fun _ h => h.elim
  · exact ⟨hs.index, hs.removing, hs.accessed⟩
  · rfl
  · rfl
  rintro _ t ⟨rfl, hbeside, system, ht⟩
  simp only [Bool.not_true, Bool.false_eq_true, if_false, ends_bind, ends_modify, ends_pure]
  exact hread system _ ⟨ht.isOpen, ht.binlog, ht.index, ht.removing, ht.accessed, ht.readable⟩
    ⟨hbeside.files, hbeside.stale⟩

/-! ### Closing -/

theorem writeBundle_head {header : List UInt8} (hheader : header.length % 16 = 0)
    (hoffset : s.binlog.offset % 16 = 0) :
    Ends (fun _ t => t.map = s.map ∧ Beside s t) (fun _ => False)
      (writeBundle env header [] s) := by
  have hwrite : Ends (fun _ t => t.map = s.map ∧ Beside s t) (fun _ => False)
      (writeBinlog env header s) := by
    simp only [writeBinlog, ends_bind, ends_ask, ends_get]
    split
    · exact ⟨rfl, rfl, rfl⟩
    cases env.written s.asked with
    | none =>
      rw [ByteFile.write_eq hheader hoffset, ends_bind, ends_lift]
      refine ⟨?_, fun stop hstop => by cases hstop⟩
      rintro _ ⟨⟩
      exact ⟨rfl, rfl, rfl⟩
    | some n => exact ⟨rfl, rfl, rfl⟩
  simp only [writeBundle, ends_bind, ne_eq, not_true_eq_false, and_false, if_false, ends_pure]
  refine hwrite.imp fun good t ht => ?_
  split
  · exact ⟨ht.1, ht.2.files, ht.2.stale⟩
  · exact ⟨ht.1, ht.2.files, ht.2.stale⟩

/-- With no accesses to write the adjusted time changes no entry. -/
theorem adjustRelativeTime_map (hoffset : s.binlog.offset % 16 = 0) (haccessed : s.accessed = ∅) :
    Ends (fun _ t => t.map = s.map ∧ Beside s t) (fun _ => False)
      (adjustRelativeTime env s) := by
  unfold adjustRelativeTime
  split
  · exact ⟨rfl, .refl _⟩
  next htracked =>
  simp only [getUnixtime, ends_bind, ends_ask, ends_pure, ends_get]
  split
  · rw [ends_discard, writeMultiAccessBlock, if_neg htracked]
    have hsize : ¬env.settings.maxBundledRecords < s.accessed.size := by
      rw [haccessed, Std.ExtTreeSet.size_empty]
      exact Nat.not_lt_zero _
    have hnil : (∅ : Std.ExtTreeSet Key).toList = [] :=
      Std.ExtTreeSet.toList_eq_nil_iff.mpr rfl
    rw [ends_bind, ends_get, if_neg hsize]
    simp only [countTimePoint, getUnixtime, ends_bind, ends_ask, ends_get, ends_pure, ends_set,
      haccessed, hnil, List.flatMap_nil, List.foldl_nil]
    refine (writeBundle_head (by simp [encodeHead, encodeTime]) ?_).imp fun _ t ht => ?_
    · exact hoffset
    · exact ⟨ht.1, ht.2.files, ht.2.stale⟩
  · exact ⟨rfl, rfl, rfl⟩

/-- What waits is written, and the entries are what they were but for the time of an access. -/
structure Flushed (s t : DatabaseObject) : Prop where
  files : t.files = s.files
  stale : t.stale = s.stale
  blurred : ∀ key : Key,
    t.map[key]?.map (Entry.withUseTime 0) = s.map[key]?.map (Entry.withUseTime 0)
  unaccessed : ∀ key : Key, key ∉ s.accessed → t.map[key]? = s.map[key]?

theorem writeMultiAccess_flushed :
    Ends (fun _ t => Flushed s t) Any (writeMultiAccess env s) := by
  simp only [writeMultiAccess, ends_bind, ends_get]
  split
  · exact ⟨rfl, rfl, fun _ => rfl, fun _ _ => rfl⟩
  rw [writeMultiAccessBlock]
  split
  · trivial
  simp only [ends_bind, ends_get]
  split
  · trivial
  rw [ends_bind]
  refine countTimePoint_kept.imp fun time t ht => ?_
  subst ht
  simp only [ends_bind, ends_get, ends_set]
  refine (writeBundle_kept _ _).imp fun _ u hu => ?_
  refine ⟨hu.files, hu.stale, fun key => ?_, fun key hkey => ?_⟩
  · rw [hu.map]
    exact foldl_setUseTime_map _ _ _ _
  · rw [hu.map]
    refine (foldl_setUseTime_getElem? _ _ _ key).trans ?_
    rw [if_neg (by rwa [Std.ExtTreeSet.mem_toList])]

theorem writeBundles_flushed (hwritten : ∀ n, env.written n = none)
    (hblocks : BlocksSuffice env.settings) (h : Consistent env.settings torn s) :
    Ends (fun _ t => Flushed s t) Any (writeBundles env s) := by
  obtain ⟨pending, hlogged, -⟩ := h
  simp only [writeBundles, ends_bind, ends_discard]
  refine ((writeMultiRemove_logged hwritten hblocks hlogged).and writeMultiRemove_kept).imp ?_
  rintro _ t ⟨⟨-, hmap, haccessed, -⟩, hkept⟩
  split
  · rw [ends_discard]
    refine writeMultiAccess_flushed.imp fun _ u hu => ?_
    refine ⟨hu.files.trans hkept.files, hu.stale.trans hkept.stale, ?_, ?_⟩
    · exact fun key => by rw [hu.blurred, hmap]
    · exact fun key hkey => by rw [hu.unaccessed key (haccessed ▸ hkey), hmap]
  · exact ⟨hkept.files, hkept.stale, fun key => by rw [hmap], fun key _ => by rw [hmap]⟩

/-! ### Opening anew -/

/-- A call that neither opens nor closes the database. -/
def Call.IsOperation : Call → Prop
  | .open _ _ | .close | .clear => False
  | _ => True

theorem adjustRelativeTime_holds (hwritten : ∀ n, env.written n = none)
    (hblocks : BlocksSuffice env.settings) : Holds env.settings torn (adjustRelativeTime env) := by
  unfold adjustRelativeTime
  split
  · exact .pure _
  refine Follows.bind getUnixtime_onlyAsks.holds fun now => Follows.get.bind fun db => ?_
  split
  · refine holds_of fun s hs => ?_
    rw [ends_discard]
    exact (writeMultiAccessBlock_consistent hwritten hblocks hs).imp fun _ _ ht => ht.1
  · exact .pure _

theorem call_holds (hwritten : ∀ n, env.written n = none) (hblocks : BlocksSuffice env.settings)
    {call : Call} (hcall : call.IsOperation) : Holds env.settings torn (call.run env) := by
  cases call with
  | «open» stored files => exact hcall.elim
  | close => exact hcall.elim
  | clear => exact hcall.elim
  | put key value => exact (put_holds hwritten hblocks key value).discard
  | putIfEmpty key value => exact (putIfEmpty_holds hwritten hblocks key value).discard
  | copyIfEmpty source target => exact (copyIfEmpty_holds hwritten hblocks source target).discard
  | moveIfEmpty source target => exact (moveIfEmpty_holds hwritten hblocks source target).discard
  | get key => exact (get_holds hwritten hblocks key).discard
  | remove key => exact (remove_holds hwritten hblocks key).discard
  | clearByTag tag => exact (clearByTag_holds hwritten hblocks tag).discard
  | clearStaleDelayed => exact clearStaleDelayed_holds hwritten hblocks
  | waitForCleaner => exact waitForCleaner_holds hwritten hblocks
  | prune => exact prune_holds hwritten hblocks
  | writeBundles =>
    refine holds_of fun s hs => ?_
    exact (writeBundles_consistent hwritten hblocks hs).imp fun _ _ ht => ht.1

theorem calls_hold (hwritten : ∀ n, env.written n = none) (hblocks : BlocksSuffice env.settings)
    {calls : List Call} (hcalls : ∀ call ∈ calls, call.IsOperation) :
    Holds env.settings torn (calls.forM (Call.run env)) := by
  induction calls with
  | nil => exact .pure _
  | cons call calls ih =>
    exact Follows.bind (call_holds hwritten hblocks (hcalls call List.mem_cons_self)) fun _ =>
      ih fun call hmem => hcalls call (List.mem_cons_of_mem _ hmem)

theorem open_of_openBinlog {stored : List UInt8} {files : PlaceId → Option (List UInt8)}
    {P : DatabaseObject → Prop} {E : Stop → Prop}
    (h : Ends (fun result t => result = .success ∧ P t) E
      (openBinlog env .readAppend stored { files })) :
    Ends (fun _ t => P t) E (Cache.open env stored files {}) := by
  simp only [Cache.open, close, ends_bind, ends_get, Bool.false_eq_true, if_false, clearState,
    ends_modify, openSomeBinlog]
  refine h.imp ?_
  rintro _ t ⟨rfl, ht⟩
  exact ht

theorem emptied_new (files : PlaceId → Option (List UInt8)) : Emptied ({ files } : DatabaseObject) :=
  ⟨rfl, rfl, rfl⟩

/-- Bytes behind a log that hold no record wait to be written over. -/
theorem open_behind {files : PlaceId → Option (List UInt8)} (hwritten : ∀ n, env.written n = none)
    (hblocks : BlocksSuffice env.settings) (hopened : env.opened 0 = .success)
    (hrs : ∀ r ∈ rs, Readable env.settings r) (hbehind : Behind env.settings left)
    (hframes : leftFrames env.settings left = [])
    (hstart : torn.start ≤ (logBytes env.settings system rs).length)
    (htorn : torn.left (logBytes env.settings system rs).length = left) :
    Ends (fun _ t => Consistent env.settings torn t) Any
      (Cache.open env (logBytes env.settings system rs ++ left) files {}) := by
  refine open_of_openBinlog (openBinlog_log (emptied_new files) hopened hrs fun t ht _ => ?_)
  refine (readBinlog_log hblocks hbehind ht fun u hu _ => ?_).imp fun _ _ hu => ⟨rfl, hu⟩
  exact (adjustRelativeTime_holds hwritten hblocks).ends (hu.consistent hframes hstart htorn)

/-- A database that is opened for the first time, or on a whole log, is what the log tells. -/
theorem open_consistent {stored : List UInt8} {files : PlaceId → Option (List UInt8)}
    (hwritten : ∀ n, env.written n = none) (hblocks : BlocksSuffice env.settings)
    (hopened : env.opened 0 = .success) (hstored : Clean env.settings stored) :
    Ends (fun _ t => Consistent env.settings {} t) Any (Cache.open env stored files {}) := by
  rcases hstored with rfl | ⟨system, rs, rfl, hrs⟩
  · refine open_of_openBinlog (openBinlog_new (emptied_new files) hopened hwritten
      fun system t ht _ => ?_)
    refine (readBinlog_log hblocks (behind_nil _) ht fun u hu _ => ?_).imp fun _ _ hu => ⟨rfl, hu⟩
    exact (adjustRelativeTime_holds hwritten hblocks).ends
      (hu.consistent (leftFrames_nil _) (Nat.zero_le _) List.drop_nil)
  · rw [← List.append_nil (logBytes env.settings system rs)]
    exact open_behind hwritten hblocks hopened hrs (behind_nil _) (leftFrames_nil _)
      (Nat.zero_le _) List.drop_nil

/-- The log of a database that is consistent and has nothing to write tells its map. -/
theorem Consistent.told (h : Consistent settings torn s) (hremoving : s.removing = ∅)
    (haccessed : s.accessed = ∅) : ∃ system rs, LogOf settings torn system rs s ∧
      ∀ key : Key, s.map[key]? = replayed settings system rs key := by
  obtain ⟨pending, ⟨system, rs, hlog, hpending⟩, hmatches⟩ := h
  refine ⟨system, rs, hlog, fun key => ?_⟩
  rw [(hmatches key).unaccessed (haccessed ▸ Std.ExtTreeSet.not_mem_empty), hpending, hremoving,
    if_neg Std.ExtTreeSet.not_mem_empty]

/-- What a database has when it was opened on a log of these records. -/
structure Told (settings : Settings) (system : UInt32) (rs : List Record)
    (files : PlaceId → Option (List UInt8)) (s : DatabaseObject) : Prop where
  map : ∀ key : Key, s.map[key]? = replayed settings system rs key
  files : s.files = files
  stale : s.stale = []

theorem length_leftFrames_mod (settings : Settings) (left : List UInt8) :
    (leftFrames settings left).flatten.length % 16 = 0 := by
  have hmod : ∀ f ∈ leftFrames settings left, f.length % 16 = 0 :=
    fun f hf => framing_mod _ _ f (Framing.isFrame_of_mem_frames hf)
  rw [List.length_flatten]
  exact Nat.mod_eq_zero_of_dvd (List.dvd_sum fun n hn => by
    obtain ⟨f, hf, rfl⟩ := List.mem_map.mp hn
    exact Nat.dvd_of_mod_eq_zero (hmod f hf))

theorem readBinlog_told {E : Stop → Prop} (hblocks : BlocksSuffice env.settings)
    (hbehind : Behind env.settings left) (hs : Unread env.settings system rs left s)
    (hstale : s.stale = []) :
    Ends (fun _ t => Told env.settings system (rs ++ leftRecords env.settings left) s.files t) E
      (readBinlog env s) := by
  refine readBinlog_log hblocks hbehind hs fun u hu hbeside => ?_
  have hmod : u.binlog.offset % 16 = 0 := by
    have hrecords := length_encodeAll_mod env.settings.maxBundledRecords_lt
      fun r hr => (hs.readable r hr).wellFormed
    have hheader := length_encodeHeader env.settings.trackEstimatedTime system
    have hleft := length_leftFrames_mod env.settings left
    rw [hu.binlog]
    simp only [logBytes, List.length_append, hheader]
    omega
  refine (adjustRelativeTime_map hmod hu.accessed).mono ?_ fun _ h => h.elim
  rintro _ v ⟨hmap, hbeside'⟩
  have hall := hbeside.trans hbeside'
  exact ⟨fun key => by rw [hmap, hu.map], hall.files, hall.stale.trans hstale⟩

theorem open_told_behind (system : UInt32) (files : PlaceId → Option (List UInt8))
    (hblocks : BlocksSuffice env.settings) (hopened : env.opened 0 = .success)
    (hrs : ∀ r ∈ rs, Readable env.settings r) (hbehind : Behind env.settings left) :
    Ends (fun _ t => Told env.settings system (rs ++ leftRecords env.settings left) files t)
      (fun _ => False) (Cache.open env (logBytes env.settings system rs ++ left) files {}) := by
  refine open_of_openBinlog (openBinlog_log (emptied_new files) hopened hrs fun t ht hbeside => ?_)
  refine (readBinlog_told hblocks hbehind ht hbeside.stale).imp fun _ u hu =>
    ⟨rfl, hu.map, ?_, hu.stale⟩
  exact hu.files.trans hbeside.files

theorem leftRecords_nil (settings : Settings) : leftRecords settings [] = [] := by
  rw [leftRecords, leftFrames_nil]
  rfl

theorem open_told (system : UInt32) (files : PlaceId → Option (List UInt8))
    (hblocks : BlocksSuffice env.settings) (hopened : env.opened 0 = .success)
    (hrs : ∀ r ∈ rs, Readable env.settings r) :
    Ends (fun _ t => Told env.settings system rs files t) (fun _ => False)
      (Cache.open env (logBytes env.settings system rs) files {}) := by
  have hopen := open_told_behind system files hblocks hopened hrs (behind_nil _)
  rwa [leftRecords_nil, List.append_nil, List.append_nil] at hopen

theorem open_new (files : PlaceId → Option (List UInt8)) (hblocks : BlocksSuffice env.settings)
    (hopened : env.opened 0 = .success) (hwritten : ∀ n, env.written n = none) :
    Ends (fun _ t => ∃ system, Told env.settings system [] files t) (fun _ => False)
      (Cache.open env [] files {}) := by
  refine open_of_openBinlog (openBinlog_new (emptied_new files) hopened hwritten
    fun system t ht hbeside => ?_)
  refine (readBinlog_told hblocks (behind_nil _) ht hbeside.stale).imp fun _ u hu => ?_
  rw [leftRecords_nil] at hu
  exact ⟨rfl, system, hu.map, hu.files.trans hbeside.files, hu.stale⟩

theorem after_open {stored : List UInt8} {files : PlaceId → Option (List UInt8)}
    {calls : List Call} (hwritten : ∀ n, env.written n = none) (hblocks : BlocksSuffice env.settings)
    (hopen : Ends (fun _ t => Consistent env.settings torn t) Any (Cache.open env stored files {}))
    (hcalls : ∀ call ∈ calls, call.IsOperation) (hs : After env (.open stored files :: calls) s) :
    Consistent env.settings torn s := by
  have hends : Ends (fun _ t => Consistent env.settings torn t) Any
      ((Call.run env (.open stored files) >>= fun _ => calls.forM (Call.run env)) {}) := by
    rw [ends_bind, Call.run, ends_discard]
    exact hopen.imp fun _ t ht => (calls_hold hwritten hblocks hcalls).ends ht
  have hafter : (Call.run env (.open stored files) >>= fun _ => calls.forM (Call.run env)) {} =
      .ok ((), s) := hs
  rwa [hafter] at hends

/-- Closing writes what waits and leaves the binlog and the files. -/
theorem close_flushes {c : DatabaseObject} (hopen : s.binlogOpen = true)
    (hc : close env s = .ok ((), c)) : ∃ u, writeBundles env s = .ok ((), u) ∧
      c.binlog = u.binlog ∧ c.files = u.files := by
  rw [close] at hc
  cases hwrite : writeBundles env s with
  | error stop =>
    simp only [bind, StateT.bind, Except.bind, get, getThe, MonadStateOf.get, StateT.get, pure,
      Except.pure, hopen, if_true, hwrite] at hc
    cases hc
  | ok p =>
    simp only [bind, StateT.bind, Except.bind, get, getThe, MonadStateOf.get, StateT.get, pure,
      Except.pure, hopen, if_true, hwrite] at hc
    cases hc
    exact ⟨p.2, rfl, rfl, rfl⟩

theorem after_opened {stored : List UInt8} {files : PlaceId → Option (List UInt8)} {error : Error}
    (h : Cache.open env stored files {} = .ok (error, t)) : After env [.open stored files] t := by
  show (discard (Cache.open env stored files) >>= fun _ => List.forM [] (Call.run env)) {} =
    .ok ((), t)
  simp only [discard, Functor.discard, Functor.mapConst, StateT.map, bind, StateT.bind, Except.bind,
    Function.comp, h]
  rfl

/-- What closing leaves of a consistent database, and what opening it anew finds in it. -/
structure Closed (env : Environment) (torn : Torn) (system : UInt32) (rs : List Record)
    (s u c : DatabaseObject) : Prop where
  written : writeBundles env s = .ok ((), u)
  flushed : Flushed s u
  map : ∀ key : Key, u.map[key]? = replayed env.settings system rs key
  log : LogOf env.settings torn system rs u
  binlog : c.binlog = u.binlog
  files : c.files = u.files

theorem Consistent.closed {c : DatabaseObject} (hwritten : ∀ n, env.written n = none)
    (hblocks : BlocksSuffice env.settings) (h : Consistent env.settings torn s)
    (hc : close env s = .ok ((), c)) : ∃ u system rs, Closed env torn system rs s u c := by
  have hopen : s.binlogOpen = true := by
    obtain ⟨pending, ⟨system, rs, hlog, -⟩, -⟩ := h
    exact hlog.isOpen
  obtain ⟨u, hu, hbinlog, hfiles⟩ := close_flushes hopen hc
  have hwrites := (writeBundles_consistent hwritten hblocks h).and
    (writeBundles_flushed hwritten hblocks h)
  rw [hu] at hwrites
  obtain ⟨⟨huconsistent, hremoving, haccessed⟩, hflushed⟩ := hwrites
  obtain ⟨system, rs, hlog, htold⟩ := huconsistent.told hremoving haccessed
  exact ⟨u, system, rs, hu, hflushed, htold, hlog, hbinlog, hfiles⟩

theorem Closed.reopened {env' : Environment} {c : DatabaseObject}
    (h : Closed env torn system rs s u c) (hblocks : BlocksSuffice env.settings)
    (hbehind : Behind env.settings (torn.left (logBytes env.settings system rs).length))
    (hsettings : env'.settings = env.settings) (hopened' : env'.opened 0 = .success) :
    ∃ t, After env' [.open c.binlog.data c.files] t ∧ Told env.settings system
      (rs ++ leftRecords env.settings (torn.left (logBytes env.settings system rs).length))
      s.files t := by
  have hreopened := open_told_behind system u.files (hsettings ▸ hblocks) hopened'
    (hsettings ▸ h.log.readable) (hsettings ▸ hbehind)
  rw [hsettings] at hreopened
  obtain ⟨error, t, hopen', ht⟩ := hreopened.exists_ok
  rw [h.binlog, h.log.data, h.files]
  exact ⟨t, after_opened hopen', ht.map, ht.files.trans h.flushed.files, ht.stale⟩

/-- Whatever was done with a database since it was opened, closing it leaves a whole log, and opening
it anew gives back its files and the map that the last writing of what waits has left, which differs
from the one before only in the time of the accesses that were not written. -/
theorem reopened_same (env env' : Environment) (stored : List UInt8)
    (files : PlaceId → Option (List UInt8)) (calls : List Call) (s c : DatabaseObject)
    (hblocks : BlocksSuffice env.settings) (hwritten : ∀ n, env.written n = none)
    (hopened : env.opened 0 = .success) (hstored : Clean env.settings stored)
    (hcalls : ∀ call ∈ calls, call.IsOperation) (hs : After env (.open stored files :: calls) s)
    (hc : close env s = .ok ((), c)) (hsettings : env'.settings = env.settings)
    (hopened' : env'.opened 0 = .success) :
    Clean env.settings c.binlog.data ∧
    ∃ u t, writeBundles env s = .ok ((), u) ∧ After env' [.open c.binlog.data c.files] t ∧
      t.files = s.files ∧ t.map = u.map ∧ ∀ key : Key,
        t.map[key]?.map (Entry.withUseTime 0) = s.map[key]?.map (Entry.withUseTime 0) ∧
        (key ∉ s.accessed → t.map[key]? = s.map[key]?) := by
  have hconsistent := after_open hwritten hblocks
    (open_consistent hwritten hblocks hopened hstored) hcalls hs
  obtain ⟨u, system, rs, hclosed⟩ := hconsistent.closed hwritten hblocks hc
  have hnil : Torn.left {} (logBytes env.settings system rs).length = [] := List.drop_nil
  obtain ⟨t, ht, htold⟩ := hclosed.reopened hblocks (hnil ▸ behind_nil _) hsettings hopened'
  rw [hnil, leftRecords_nil, List.append_nil] at htold
  have hdata : c.binlog.data = logBytes env.settings system rs := by
    rw [hclosed.binlog, hclosed.log.data, hnil, List.append_nil]
  have hmap : t.map = u.map := Std.ExtTreeMap.ext_getElem? fun key => by
    rw [htold.map, hclosed.map]
  refine ⟨.inr ⟨system, rs, hdata, hclosed.log.readable⟩, u, t, hclosed.written, ht, htold.files,
    hmap, fun key => ⟨?_, fun hkey => ?_⟩⟩
  · rw [hmap, hclosed.flushed.blurred]
  · rw [hmap, hclosed.flushed.unaccessed key hkey]

theorem reopened_same_twoPuts :
    let s := stateAfter (calm laterOn) (twoPuts ++ [.get ⟨0, 1⟩, .remove ⟨0, 2⟩])
    let c := outcome (close (calm laterOn) s)
    Clean defaultSettings c.binlog.data ∧
    ∃ u t, writeBundles (calm laterOn) s = .ok ((), u) ∧
      After (calm laterOn) [.open c.binlog.data c.files] t ∧
      t.files = s.files ∧ t.map = u.map ∧ ∀ key : Key,
        t.map[key]?.map (Entry.withUseTime 0) = s.map[key]?.map (Entry.withUseTime 0) ∧
        (key ∉ s.accessed → t.map[key]? = s.map[key]?) :=
  reopened_same (calm laterOn) (calm laterOn) [] (fun _ => none)
    [.put ⟨0, 1⟩ { bytes := [1] }, .put ⟨0, 2⟩ { bytes := [2] }, .get ⟨0, 1⟩, .remove ⟨0, 2⟩] _ _
    ⟨by decide, by decide, by decide⟩ (fun _ => rfl) rfl (.inl rfl)
    (by simp [Call.IsOperation]) (ok_outcome (by decide +kernel)) (ok_outcome (by decide +kernel))
    rfl rfl

end TelegramClient.Cache
