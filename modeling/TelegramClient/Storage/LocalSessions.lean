import TelegramClient.Storage.LocalMapRead

/-! Runs of the local storage (`storage/localstorage.cpp`) over restarts: the map is changed and
written, the passcode is set, the storage is reset, and every start reads the map that was written
last. -/

namespace TelegramClient.Local

open DataStream Std

variable {env : Env} {s t : State}

/-! ### Sizes -/

theorem length_prepareEncrypted (ssl : LocalCrypto) (authKey : List UInt8) (random : Nat → UInt8)
    (d : EncryptedDescriptor) :
    (prepareEncrypted ssl authKey random d).length = 16 + (d.data.length + 15) / 16 * 16 := by
  have hfour := d.four_le
  rw [prepareEncrypted]
  generalize hfull : (if d.data.length % 16 = 0 then d.data.length
    else d.data.length + (16 - d.data.length % 16)) = fullSize
  have hround : fullSize = (d.data.length + 15) / 16 * 16 := by
    split at hfull <;> omega
  generalize hsized : leBytes 4 d.data.length ++
    (d.data ++ (List.range (fullSize - d.data.length)).map random).drop 4 = sized
  have hlength : sized.length = fullSize := by
    rw [← hsized, List.length_append, length_leBytes, List.length_drop, List.length_append,
      List.length_map, List.length_range]
    omega
  have haes : (aesEncryptLocal ssl authKey sized ((ssl.sha1 sized).take 16)).length =
      sized.length := ssl.length_igeEncrypt _ _ _ (by omega)
  show ((ssl.sha1 sized).take 16 ++ aesEncryptLocal ssl authKey sized _).length = _
  rw [List.length_append, haes, hlength, List.length_take, ssl.length_sha1, hround]
  omega

theorem decrypt_descriptor (authKey : List UInt8) (random : Nat → UInt8) {data : List UInt8}
    (h : data.length < 2 ^ 31) :
    decryptLocal env.ssl authKey (prepareEncrypted env.ssl authKey random (descriptor data)) =
      some (leBytes 4 (4 + data.length) ++ data) := by
  have hlength : (descriptor data).data.length = 4 + data.length := by
    rw [descriptor, List.length_append, List.length_cons, List.length_cons, List.length_cons,
      List.length_cons, List.length_nil]
  rw [decryptLocal_prepareEncrypted _ _ _ _ (by omega), hlength]
  rfl

/-- The key of the storage, under the key of a passcode. -/
def sealedKey (env : Env) (pass salt localKey : List UInt8) (random : Nat → UInt8) : List UInt8 :=
  prepareEncrypted env.ssl (env.createLocalKey pass salt) random (descriptor localKey)

/-- The map fits in what one read of a file can return. -/
def MapFits (env : Env) (stream : List UInt8) : Prop := stream.length + 383 ≤ env.qt.maxSize

theorem length_le_writeDraftKeys (k : Lsk) (drafts : DraftsMap) :
    drafts.size ≤ (writeDraftKeys k drafts).length := by
  rw [writeDraftKeys]
  split
  · next hempty =>
    rw [ExtTreeMap.isEmpty_iff.mp hempty, ExtTreeMap.size_empty]
    exact Nat.zero_le _
  · have hpairs : ∀ ps : List (PeerId × FileKey),
        ps.length ≤ (ps.flatMap fun p => writeUInt64 p.2 ++ writeUInt64 p.1).length := by
      intro ps
      induction ps with
      | nil => exact Nat.zero_le _
      | cons p ps ih =>
        have hkey : 0 < (writeUInt64 p.2).length := by rw [writeUInt64, length_writeNumber]; decide
        rw [List.flatMap_cons, List.length_append, List.length_append, List.length_cons]
        omega
    have hle := hpairs drafts.toList
    rw [ExtTreeMap.length_toList] at hle
    rw [List.length_append]
    omega

theorem length_le_mapStream (self : List UInt8) (drafts cursors : DraftsMap) (keys : Keys) :
    self.length ≤ (mapStream self drafts cursors keys).length ∧
      drafts.size ≤ (mapStream self drafts cursors keys).length ∧
      cursors.size ≤ (mapStream self drafts cursors keys).length := by
  have hdrafts := length_le_writeDraftKeys .draft drafts
  have hcursors := length_le_writeDraftKeys .draftPosition cursors
  have hself : self.length ≤ (if self = [] then [] else
      writeUInt32 Lsk.selfSerialized.value ++ writeBytes self).length := by
    split
    · next hnil => rw [hnil]
    · rw [List.length_append]
      exact (length_le_writeBytes self).trans (Nat.le_add_left _ _)
  simp only [mapStream, List.length_append]
  omega

/-! ### The file of the map -/

/-- What was written last, and under which passcode it is read. -/
structure Written where
  pass : List UInt8
  self : List UInt8
  draftsMap : DraftsMap
  draftCursorsMap : DraftsMap
  keys : Keys

def Written.stream (w : Written) : List UInt8 :=
  mapStream w.self w.draftsMap w.draftCursorsMap w.keys

def Written.entries (w : Written) : Entries :=
  mapEntries w.self w.draftsMap w.draftCursorsMap w.keys

/-- The keys in memory are those of the passcode. -/
structure Locked (env : Env) (pass : List UInt8) (s : State) : Prop where
  salt : s.passKeySalt.length = 32
  localKey : s.localKey.length = 256
  encrypted : ∃ random, s.passKeyEncrypted = sealedKey env pass s.passKeySalt s.localKey random

/-- One copy of the map is on the disk, and it was written with the keys in memory. -/
def OnDisk (env : Env) (w : Written) (s : State) : Prop :=
  MapFits env w.stream ∧ ∃ name now random,
    s.map.get name = some ⟨fileBytes [some s.passKeySalt, some s.passKeyEncrypted,
      some (prepareEncrypted env.ssl s.localKey random (descriptor w.stream))], now⟩ ∧
    s.map.get name.other = none

theorem Locked.fits {pass stream : List UInt8} (h : Locked env pass s) (hfits : MapFits env stream)
    (random : Nat → UInt8) :
    (streamOf [some s.passKeySalt, some s.passKeyEncrypted,
      some (prepareEncrypted env.ssl s.localKey random (descriptor stream))]).length + 16 ≤
      env.qt.maxSize := by
  obtain ⟨randomKey, hkey⟩ := h.encrypted
  have hkeyLength : s.passKeyEncrypted.length = 288 := by
    rw [hkey, sealedKey, length_prepareEncrypted, descriptor, List.length_append, h.localKey]
    rfl
  have hmapLength := length_prepareEncrypted env.ssl s.localKey random (descriptor stream)
  have hstream : (descriptor stream).data.length = 4 + stream.length := by
    rw [descriptor, List.length_append, List.length_cons, List.length_cons, List.length_cons,
      List.length_cons, List.length_nil]
  have hsalt := h.salt
  rw [MapFits] at hfits
  simp only [streamOf, List.flatMap_cons, List.flatMap_nil, List.append_nil, List.length_append,
    length_encodeArray, QByteArray.bytes, Option.getD_some]
  omega

theorem writeAll_map (arrays : List QByteArray) (hfits : (streamOf arrays).length + 16 ≤ env.qt.maxSize) :
    (FileWriteDescriptor.writeAll {} arrays).file = fileBytes arrays :=
  FileWriteDescriptor.writeAll_file (arrays_lt_of_fits hfits)
    (FileWriteDescriptor.writeAll_failed (fun _ _ => rfl) _)

namespace State

/-- The keys in memory, new ones if there are none. -/
def withKeys (env : Env) (secrets : Secrets) (s : State) : State :=
  if s.passKeySalt = [] ∨ s.passKeyEncrypted = [] then s.createKeys env secrets else s

theorem writeMap_unchanged {self : List UInt8} {secrets : State.Secrets} {io : Io}
    (h : s.mapChanged = false) : s.writeMap env self secrets io = s := by
  rw [writeMap, h]
  rfl

end State

/-- What is written. -/
def writtenBy (pass self : List UInt8) (s : State) : Written where
  pass := pass
  self := self
  draftsMap := s.draftsMap
  draftCursorsMap := s.draftCursorsMap
  keys := s.keys

theorem writeMap_onDisk {pass self : List UInt8} {secrets : State.Secrets} {io : Io}
    (hchanged : s.mapChanged = true) (hlocked : Locked env pass (s.withKeys env secrets))
    (hfits : MapFits env (mapStream self s.draftsMap s.draftCursorsMap s.keys)) :
    Locked env pass (s.writeMap env self secrets io) ∧
      OnDisk env (writtenBy pass self s) (s.writeMap env self secrets io) := by
  have hsame : (s.withKeys env secrets).draftsMap = s.draftsMap ∧
      (s.withKeys env secrets).draftCursorsMap = s.draftCursorsMap ∧
      (s.withKeys env secrets).keys = s.keys := by
    rw [State.withKeys]
    split <;> exact ⟨rfl, rfl, rfl⟩
  have hstream : mapStream self (s.withKeys env secrets).draftsMap
      (s.withKeys env secrets).draftCursorsMap (s.withKeys env secrets).keys =
      (writtenBy pass self s).stream := by
    rw [hsame.1, hsame.2.1, hsame.2.2]
    rfl
  have hwrite : s.writeMap env self secrets io = { s.withKeys env secrets with
      map := (s.withKeys env secrets).map.writeFile true {} io.now
        [some (s.withKeys env secrets).passKeySalt, some (s.withKeys env secrets).passKeyEncrypted,
          some (prepareEncrypted env.ssl (s.withKeys env secrets).localKey io.random
            (descriptor (writtenBy pass self s).stream))]
      mapChanged := false } := by
    rw [State.writeMap, hchanged, ← hstream]
    rfl
  rw [hwrite]
  have hfile := writeAll_map _ (hlocked.fits hfits io.random)
  obtain ⟨hget, hother⟩ := @LocalCopies.get_writeFile {} rfl io.now (s.withKeys env secrets).map
    [some (s.withKeys env secrets).passKeySalt, some (s.withKeys env secrets).passKeyEncrypted,
      some (prepareEncrypted env.ssl (s.withKeys env secrets).localKey io.random
        (descriptor (writtenBy pass self s).stream))]
  refine ⟨⟨hlocked.salt, hlocked.localKey, hlocked.encrypted⟩, hfits, _, io.now, io.random, ?_,
    hother⟩
  rw [hget]
  exact congrArg (fun bytes => some (Copy.mk bytes io.now)) hfile

/-! ### Starting -/

/-- What the files that are read with the map can change of its keys. -/
structure Restored (fresh : FileKey) (keys keys' : Keys) : Prop where
  others : keys' = { keys with
    locationsKey := keys'.locationsKey
    reportSpamStatusesKey := keys'.reportSpamStatusesKey
    userSettingsKey := keys'.userSettingsKey }
  locations : keys'.locationsKey = keys.locationsKey ∨ keys'.locationsKey = 0
  reportSpam : keys'.reportSpamStatusesKey = keys.reportSpamStatusesKey ∨
    keys'.reportSpamStatusesKey = 0
  settings : keys'.userSettingsKey = keys.userSettingsKey ∨
    keys.userSettingsKey = 0 ∧ keys'.userSettingsKey = fresh

theorem Restored.refl (fresh : FileKey) (keys : Keys) : Restored fresh keys keys :=
  ⟨rfl, .inl rfl, .inl rfl, .inl rfl⟩

theorem Restored.trans {fresh : FileKey} {keys keys' keys'' : Keys} (h : Restored fresh keys keys')
    (h' : Restored fresh keys' keys'') : Restored fresh keys keys'' where
  others := by rw [h'.others, h.others]
  locations := by
    rcases h'.locations with heq | hzero
    · rw [heq]
      exact h.locations
    · exact .inr hzero
  reportSpam := by
    rcases h'.reportSpam with heq | hzero
    · rw [heq]
      exact h.reportSpam
    · exact .inr hzero
  settings := by
    rcases h'.settings with heq | ⟨hzero, hfresh⟩
    · rw [heq]
      exact h.settings
    · rcases h.settings with heq | ⟨hzero', -⟩
      · exact .inr ⟨heq ▸ hzero, hfresh⟩
      · exact .inr ⟨hzero', hfresh⟩

/-- Only the files are touched, and with them their keys. -/
structure Touched (fresh : FileKey) (s t : State) : Prop where
  others : t = { s with files := t.files, keys := t.keys, mapChanged := t.mapChanged }
  keys : Restored fresh s.keys t.keys

theorem Touched.refl (fresh : FileKey) (s : State) : Touched fresh s s := ⟨rfl, .refl _ _⟩

theorem Touched.trans {fresh : FileKey} {u : State} (h : Touched fresh s t)
    (h' : Touched fresh t u) : Touched fresh s u where
  others := by rw [h'.others, h.others]
  keys := h.keys.trans h'.keys

theorem foldl_clearUserKey (fs : List FileKey) (s : State) :
    ∃ files, fs.foldl State.clearUserKey s = { s with files } := by
  induction fs generalizing s with
  | nil => exact ⟨s.files, rfl⟩
  | cons f fs ih =>
    obtain ⟨files, hfiles⟩ := ih (s.clearUserKey f)
    exact ⟨files, hfiles⟩

theorem readLocations_touched (fresh : FileKey) (s : State) :
    Touched fresh s (s.readLocations env) := by
  rw [State.readLocations, State.readFile]
  cases (readEncryptedFile env s.localKey (s.files s.keys.locationsKey)).1 with
  | none => exact ⟨rfl, rfl, .inr rfl, .inl rfl, .inl rfl⟩
  | some found =>
    dsimp only
    obtain ⟨files, hcleared⟩ := foldl_clearUserKey (env.webLocations found.2)
      (s.setFile s.keys.locationsKey
        (readEncryptedFile env s.localKey (s.files s.keys.locationsKey)).2)
    rw [hcleared]
    exact ⟨rfl, .refl _ _⟩

theorem readReportSpamStatuses_touched (fresh : FileKey) (s : State) :
    Touched fresh s (s.readReportSpamStatuses env) := by
  rw [State.readReportSpamStatuses, State.readFile]
  cases (readEncryptedFile env s.localKey (s.files s.keys.reportSpamStatusesKey)).1 with
  | none => exact ⟨rfl, rfl, .inl rfl, .inr rfl, .inl rfl⟩
  | some found => exact ⟨rfl, .refl _ _⟩

theorem writeUserSettings_touched (fresh : FileKey) (io : Io) (s : State) :
    Touched fresh s (s.writeUserSettings env fresh io) := by
  rw [State.writeUserSettings]
  split
  · next hkey => exact ⟨rfl, rfl, .inl rfl, .inl rfl, .inr ⟨hkey, rfl⟩⟩
  · exact ⟨rfl, .refl _ _⟩

theorem readUserSettings_touched (fresh : FileKey) (io : Io) (s : State) :
    Touched fresh s (s.readUserSettings env fresh io) := by
  have hread : Touched fresh s (s.readFile env s.keys.userSettingsKey).2 := ⟨rfl, .refl _ _⟩
  have hwrite := hread.trans (@writeUserSettings_touched env fresh io _)
  rw [State.readUserSettings]
  cases hfound : s.readFile env s.keys.userSettingsKey with
  | mk found t =>
    rw [hfound] at hread hwrite
    cases found with
    | none => exact hwrite
    | some found =>
      dsimp only
      split
      · exact hread
      · exact hwrite

/-- The variables of the map, before the files are read. -/
def State.taken (s : State) (version : Int) (e : Entries) : State := { s with
  keys := e.keys
  draftsMap := e.draftsMap
  draftCursorsMap := e.draftCursorsMap
  draftsNotReadMap := e.draftsNotReadMap
  oldMapVersion := version
  mapChanged := decide (version < AppVersion) }

theorem restore_touched (fresh : FileKey) (io : Io) (version : Int) (e : Entries) (s : State) :
    Touched fresh (s.taken version e) (s.restore env fresh io version e) := by
  have hlocations : Touched fresh (s.taken version e)
      (if (s.taken version e).keys.locationsKey = 0 then s.taken version e
        else (s.taken version e).readLocations env) := by
    split
    · exact .refl _ _
    · exact readLocations_touched fresh _
  obtain ⟨t, ht⟩ : ∃ t, t = if (s.taken version e).keys.locationsKey = 0 then s.taken version e
        else (s.taken version e).readLocations env := ⟨_, rfl⟩
  have hstatuses : Touched fresh t
      (if t.keys.reportSpamStatusesKey = 0 then t else t.readReportSpamStatuses env) := by
    split
    · exact .refl _ _
    · exact readReportSpamStatuses_touched fresh _
  rw [← ht] at hlocations
  have hrestore : s.restore env fresh io version e =
      (if t.keys.reportSpamStatusesKey = 0 then t
        else t.readReportSpamStatuses env).readUserSettings env fresh io := by
    rw [ht]
    rfl
  rw [hrestore]
  exact (hlocations.trans hstatuses).trans (readUserSettings_touched fresh io _)

/-- What a start finds in the file of the map. -/
theorem readFile_onDisk {w : Written} (hlocked : Locked env w.pass s) (hdisk : OnDisk env w s) :
    ∃ stream mapEncrypted, s.map.readFile env.qt true = (some ((AppVersion : Int), stream), s.map) ∧
      readArrays 3 stream =
        some ([some s.passKeySalt, some s.passKeyEncrypted, some mapEncrypted], []) ∧
      decryptLocal env.ssl s.localKey mapEncrypted =
        some (leBytes 4 (4 + w.stream.length) ++ w.stream) := by
  obtain ⟨hfits, name, now, random, hget, hother⟩ := hdisk
  have hsize := hlocked.fits hfits random
  obtain ⟨arrays, harrays⟩ : ∃ arrays : List QByteArray, arrays = [some s.passKeySalt,
    some s.passKeyEncrypted, some (prepareEncrypted env.ssl s.localKey random
      (descriptor w.stream))] := ⟨_, rfl⟩
  rw [← harrays] at hget hsize
  have hmax := env.qt.maxSize_lt
  refine ⟨streamOf arrays, prepareEncrypted env.ssl s.localKey random (descriptor w.stream), ?_, ?_,
    ?_⟩
  · rw [LocalCopies.readFile_alone (LocalCopies.toRead_alone hget hother) hget,
      readCopy_fileBytes hsize]
  · have harr := readArrays_streamOf (arrays_lt_of_fits hsize) []
    have hthree : arrays.length = 3 := by
      rw [harrays]
      rfl
    rw [List.append_nil, hthree] at harr
    rwa [← harrays]
  · refine decrypt_descriptor _ _ ?_
    rw [MapFits] at hfits
    omega

/-- A start with the passcode reads what is on the disk. -/
theorem readMap_onDisk {w : Written} (hlocked : Locked env w.pass s) (hdisk : OnDisk env w s)
    (fresh : FileKey) (io : Io) :
    (s.ended.readMap env w.pass fresh io).1 = .done ∧
      ∃ u : State, Touched fresh (u.taken AppVersion w.entries)
          (s.ended.readMap env w.pass fresh io).2 ∧
        u.localKey = s.localKey ∧ u.passKeySalt = s.passKeySalt ∧
        u.passKeyEncrypted = s.passKeyEncrypted ∧ u.map = s.map := by
  obtain ⟨stream, mapEncrypted, hread, hthree, hmapData⟩ := readFile_onDisk hlocked hdisk
  obtain ⟨random, hkey⟩ := hlocked.encrypted
  have hlocalKey := hlocked.localKey
  have hsalt : ¬s.passKeySalt.length ≠ 32 := not_not.mpr hlocked.salt
  have hkeyData : decryptLocal env.ssl (env.createLocalKey w.pass s.passKeySalt) s.passKeyEncrypted =
      some (leBytes 4 (4 + s.localKey.length) ++ s.localKey) := by
    rw [hkey, sealedKey]
    exact decrypt_descriptor _ _ (by omega)
  have hdrop : ∀ (n : Nat) (data : List UInt8), (leBytes 4 n ++ data).drop 4 = data :=
    fun n data => List.drop_left' (length_leBytes 4 n)
  have hstreamLength : w.stream.length < 2 ^ 31 := by
    have hmax := env.qt.maxSize_lt
    have hfits := hdisk.1
    rw [MapFits] at hfits
    omega
  obtain ⟨hself, hdrafts, hcursors⟩ :=
    length_le_mapStream w.self w.draftsMap w.draftCursorsMap w.keys
  have hentries : readEntries env.isNightMode w.stream.length {} ⟨w.stream, true⟩ =
      some (w.entries, ⟨[], true⟩) :=
    (reads_mapStream w.keys (hself.trans_lt hstreamLength)
      (hdrafts.trans_lt (hstreamLength.trans (by decide)))
      (hcursors.trans_lt (hstreamLength.trans (by decide)))).result
  have hresult : s.ended.readMap env w.pass fresh io =
      (.done, State.restore env fresh io AppVersion w.entries { s.ended with
        localKey := s.localKey
        passKeyEncrypted := s.passKeyEncrypted
        passKeySalt := s.passKeySalt }) := by
    rw [State.readMap, State.ended, hread]
    simp only [hthree, QByteArray.bytes, Option.getD_some, hsalt, if_false, hkeyData, hdrop,
      hlocalKey, ne_eq, not_true_eq_false, hmapData, hentries]
  rw [hresult]
  exact ⟨rfl, _, restore_touched fresh io _ _ _, rfl, rfl, rfl, rfl⟩

/-- A passcode whose key opens nothing is asked for again. -/
theorem readMap_passNeeded {w : Written} {pass : List UInt8} (hlocked : Locked env w.pass s)
    (hdisk : OnDisk env w s) (fresh : FileKey) (io : Io)
    (hpass : decryptLocal env.ssl (env.createLocalKey pass s.passKeySalt) s.passKeyEncrypted = none) :
    s.ended.readMap env pass fresh io = (.passNeeded, s.ended) := by
  obtain ⟨stream, mapEncrypted, hread, hthree, -⟩ := readFile_onDisk hlocked hdisk
  have hsalt : ¬s.passKeySalt.length ≠ 32 := not_not.mpr hlocked.salt
  rw [State.readMap, State.ended, hread]
  simp only [hthree, QByteArray.bytes, Option.getD_some, hsalt, if_false, hpass]

/-- A start keeps the keys of the passcode and the file of the map. -/
theorem Touched.kept {w : Written} {fresh : FileKey} {u : State} {version : Int}
    (h : Touched fresh (u.taken version w.entries) t) (hlocked : Locked env w.pass s)
    (hdisk : OnDisk env w s) (hlocalKey : u.localKey = s.localKey)
    (hsalt : u.passKeySalt = s.passKeySalt) (hencrypted : u.passKeyEncrypted = s.passKeyEncrypted)
    (hmap : u.map = s.map) : Locked env w.pass t ∧ OnDisk env w t := by
  rw [h.others]
  refine ⟨⟨?_, ?_, ?_⟩, ?_⟩
  · exact (congrArg List.length hsalt).trans hlocked.salt
  · exact (congrArg List.length hlocalKey).trans hlocked.localKey
  · show ∃ random, u.passKeyEncrypted = sealedKey env w.pass u.passKeySalt u.localKey random
    rw [hencrypted, hsalt, hlocalKey]
    exact hlocked.encrypted
  · show MapFits env w.stream ∧ ∃ name now random,
      u.map.get name = some ⟨fileBytes [some u.passKeySalt, some u.passKeyEncrypted,
        some (prepareEncrypted env.ssl u.localKey random (descriptor w.stream))], now⟩ ∧
      u.map.get name.other = none
    rw [hencrypted, hsalt, hlocalKey, hmap]
    exact hdisk

/-! ### Runs -/

namespace State

/-- `setPasscode` -/
def setPasscode (env : Env) (passcode self : List UInt8) (secrets : Secrets) (keyIo io : Io)
    (s : State) : State :=
  let s := { s with
    passKeyEncrypted := prepareEncrypted env.ssl (env.createLocalKey passcode s.passKeySalt)
      keyIo.random (descriptor s.localKey)
    mapChanged := true }
  s.writeMap env self secrets io

/-- `reset` -/
def reset (env : Env) (self : List UInt8) (secrets : Secrets) (io : Io) (s : State) : State :=
  let s := { s with
    passKeySalt := []
    draftsMap := ∅
    draftCursorsMap := ∅
    draftsNotReadMap := ∅
    keys := {}
    oldMapVersion := 0
    mapChanged := true }
  s.writeMap env self secrets io

end State

inductive Step
  /-- Files come and go, and with them their keys. -/
  | change (keys : Keys) (draftsMap draftCursorsMap : DraftsMap) (files : FileKey → LocalCopies)
  | writeMap (self : List UInt8) (secrets : State.Secrets) (io : Io)
  | setPasscode (passcode self : List UInt8) (secrets : State.Secrets) (keyIo io : Io)
  | reset (self : List UInt8) (secrets : State.Secrets) (io : Io)
  | restart (pass : List UInt8) (fresh : FileKey) (io : Io)

/-- The storage, and what its map was when it was written last. -/
structure Session where
  state : State := { mapChanged := true }
  written : Option Written := none

def Step.run (env : Env) (n : Session) : Step → Session
  | .change keys draftsMap draftCursorsMap files =>
    { n with state := { n.state with keys, draftsMap, draftCursorsMap, files, mapChanged := true } }
  | .writeMap self secrets io =>
    { state := n.state.writeMap env self secrets io
      written :=
        if n.state.mapChanged then
          some (writtenBy (n.written.elim [] Written.pass) self n.state)
        else n.written }
  | .setPasscode passcode self secrets keyIo io =>
    { state := n.state.setPasscode env passcode self secrets keyIo io
      written := some (writtenBy passcode self n.state) }
  | .reset self secrets io =>
    { state := n.state.reset env self secrets io
      written := some ⟨[], self, ∅, ∅, {}⟩ }
  | .restart pass fresh io =>
    { n with state := (n.state.ended.readMap env pass fresh io).2 }

/-- There is room for the map, the passcode is set for a storage that has its keys, and starts are
with the passcode. -/
def Step.Allowed (env : Env) (n : Session) : Step → Prop
  | .change _ _ _ _ => True
  | .writeMap self _ _ =>
    MapFits env (mapStream self n.state.draftsMap n.state.draftCursorsMap n.state.keys)
  | .setPasscode _ self _ _ _ => n.written ≠ none ∧
    MapFits env (mapStream self n.state.draftsMap n.state.draftCursorsMap n.state.keys)
  | .reset self _ _ => MapFits env (mapStream self ∅ ∅ {})
  | .restart pass _ _ => ∃ w, n.written = some w ∧ pass = w.pass

def Runs (env : Env) : List Step → Session → Session → Prop
  | [], n, n' => n' = n
  | step :: steps, n, n' => step.Allowed env n ∧ Runs env steps (step.run env n) n'

/-- The keys in memory belong to what was written last, which is on the disk. -/
structure Session.Good (env : Env) (n : Session) : Prop where
  installed : n.written = none → n.state.passKeySalt = [] ∧ n.state.mapChanged = true
  locked : ∀ w, n.written = some w → Locked env w.pass n.state
  onDisk : ∀ w, n.written = some w → OnDisk env w n.state

theorem Session.Good.of_written {n : Session} {w : Written} (hwritten : n.written = some w)
    (hlocked : Locked env w.pass n.state) (hdisk : OnDisk env w n.state) : n.Good env where
  installed hnone := by
    rw [hwritten] at hnone
    cases hnone
  locked w' hw' := by
    obtain rfl : w = w' := Option.some.inj (hwritten.symm.trans hw')
    exact hlocked
  onDisk w' hw' := by
    obtain rfl : w = w' := Option.some.inj (hwritten.symm.trans hw')
    exact hdisk

theorem createKeys_locked (secrets : State.Secrets) (s : State) :
    Locked env [] (s.createKeys env secrets) where
  salt := secrets.length_passKeySalt
  localKey := env.length_createLocalKey _ _
  encrypted := ⟨_, rfl⟩

theorem Locked.withKeys {pass : List UInt8} (h : Locked env pass s) (secrets : State.Secrets) :
    s.withKeys env secrets = s := by
  have hsalt : ¬s.passKeySalt = [] := by
    intro hnil
    have hlength := h.salt
    rw [hnil] at hlength
    cases hlength
  have hencrypted : ¬s.passKeyEncrypted = [] := by
    intro hnil
    obtain ⟨random, hkey⟩ := h.encrypted
    have hlength := congrArg List.length hkey
    rw [hnil, sealedKey, length_prepareEncrypted, List.length_nil] at hlength
    omega
  rw [State.withKeys, if_neg (not_or.mpr ⟨hsalt, hencrypted⟩)]

theorem withKeys_locked {n : Session} (hn : n.Good env) (secrets : State.Secrets) :
    Locked env (n.written.elim [] Written.pass) (n.state.withKeys env secrets) := by
  cases hw : n.written with
  | none =>
    rw [State.withKeys, if_pos (.inl (hn.installed hw).1)]
    exact createKeys_locked secrets _
  | some w =>
    rw [(hn.locked w hw).withKeys]
    exact hn.locked w hw

/-- What one step keeps. -/
theorem step_good {n : Session} {step : Step} (hn : n.Good env) (hstep : step.Allowed env n) :
    (step.run env n).Good env := by
  cases step with
  | change keys draftsMap draftCursorsMap files =>
    refine ⟨fun hnone => ⟨(hn.installed hnone).1, rfl⟩, fun w hw => ?_, fun w hw => ?_⟩
    · have hlocked := hn.locked w hw
      exact ⟨hlocked.salt, hlocked.localKey, hlocked.encrypted⟩
    · exact hn.onDisk w hw
  | writeMap self secrets io =>
    cases hchanged : n.state.mapChanged with
    | false =>
      have hsame : Step.run env n (.writeMap self secrets io) = n := by
        rw [Step.run, State.writeMap_unchanged hchanged, hchanged]
        rfl
      rw [hsame]
      exact hn
    | true =>
      obtain ⟨hlocked, hdisk⟩ := @writeMap_onDisk env n.state _ self secrets io hchanged
        (withKeys_locked hn secrets) hstep
      refine .of_written ?_ hlocked hdisk
      rw [Step.run, hchanged, if_pos rfl]
  | setPasscode passcode self secrets keyIo io =>
    obtain ⟨hwritten, hfits⟩ := hstep
    obtain ⟨w, hw⟩ := Option.ne_none_iff_exists'.mp hwritten
    have hlocked := hn.locked w hw
    obtain ⟨s, hs⟩ : ∃ s : State, s = { n.state with
      passKeyEncrypted := prepareEncrypted env.ssl
        (env.createLocalKey passcode n.state.passKeySalt) keyIo.random (descriptor n.state.localKey)
      mapChanged := true } := ⟨_, rfl⟩
    have hlocked' : Locked env passcode s := by
      rw [hs]
      exact ⟨hlocked.salt, hlocked.localKey, keyIo.random, rfl⟩
    have hchanged : s.mapChanged = true := by rw [hs]
    have hfits' : MapFits env (mapStream self s.draftsMap s.draftCursorsMap s.keys) := by
      rw [hs]
      exact hfits
    obtain ⟨hlast, hdisk⟩ := @writeMap_onDisk env s passcode self secrets io hchanged
      (by rw [hlocked'.withKeys]; exact hlocked') hfits'
    rw [hs] at hlast hdisk
    exact .of_written rfl hlast hdisk
  | reset self secrets io =>
    obtain ⟨s, hs⟩ : ∃ s : State, s = { n.state with
      passKeySalt := []
      draftsMap := ∅
      draftCursorsMap := ∅
      draftsNotReadMap := ∅
      keys := {}
      oldMapVersion := 0
      mapChanged := true } := ⟨_, rfl⟩
    have hchanged : s.mapChanged = true := by rw [hs]
    have hsalt : s.passKeySalt = [] := by rw [hs]
    have hfits : MapFits env (mapStream self s.draftsMap s.draftCursorsMap s.keys) := by
      rw [hs]
      exact hstep
    have hlocked : Locked env [] (s.withKeys env secrets) := by
      rw [State.withKeys, if_pos (.inl hsalt)]
      exact createKeys_locked secrets s
    obtain ⟨hlast, hdisk⟩ := @writeMap_onDisk env s [] self secrets io hchanged hlocked hfits
    rw [hs] at hlast hdisk
    exact .of_written rfl hlast hdisk
  | restart pass fresh io =>
    obtain ⟨w, hw, rfl⟩ := hstep
    obtain ⟨-, u, htouched, hlocalKey, hsalt, hencrypted, hmap⟩ :=
      readMap_onDisk (hn.locked w hw) (hn.onDisk w hw) fresh io
    obtain ⟨hlocked, hdisk⟩ := htouched.kept (hn.locked w hw) (hn.onDisk w hw) hlocalKey hsalt
      hencrypted hmap
    exact .of_written hw hlocked hdisk

theorem runs_good {steps : List Step} {n n' : Session} (hn : n.Good env)
    (hruns : Runs env steps n n') : n'.Good env := by
  induction steps generalizing n with
  | nil =>
    obtain rfl : n' = n := hruns
    exact hn
  | cons step steps ih => exact ih (step_good hn hruns.1) hruns.2

theorem installed_good (env : Env) : ({} : Session).Good env where
  installed _ := ⟨rfl, rfl⟩
  locked w hw := by cases hw
  onDisk w hw := by cases hw

/-- PBKDF2 of 256 zeros with a salt of zeros -/
def storageKey : List UInt8 :=
  [(32, 0x2c1392d7d7ddd4b60fd487fe6ae1ce31b8fbe2e3f42cc9103c9e7d175aa4e6bb),
    (32, 0x5f6da9d3f5f6ab563c6c66889e53660d7bf14452b6f2626b13c1f1bc7bd9cc97),
    (32, 0x6e7f1c704cd4f2c507608653d2248552c46f4826e4a138b62dd1c476bba459fe),
    (32, 0xb3336fa4afcef526ac1b95b4ea0abcff2b88d7fa3383ca07b79def5210025aac),
    (32, 0x2e1e0d24609736c73f071663bc8e64ae7ca8b3270e754221c3643c92fa7dce83),
    (32, 0x875ca1cd96be863c62b97bda73b794a80ba1b538139d03b38f0005e17dabec67),
    (32, 0x6f0ef11934bf0b632dff70d7a60c15fda6ab032a46c6a5fe2e59e4d29c95ff87),
    (32, 0x93f53c6608ad11e8d9c2f9fcb124b05068be925acaac5d3498165a7ff9ba2d28)].flatMap
    fun p => leBytes p.1 p.2

/-- PBKDF2 of no passcode with a salt of zeros -/
def emptyPassKey : List UInt8 :=
  [(32, 0xa2a5bb540dc7ba547ca3a39db539b3d16c56ea9f6d17bb42d90add7f05e7d9d3),
    (32, 0xeedc7ce62496425aa690f367137d152774bc96f35567cb0506fb08ae3d2f7a66),
    (32, 0xfe3e4ef44ca182abb8c0a8d02cf3052ce235ca7e6a502c4fa630d25e297f8568),
    (32, 0x6c28073d2baefa7e02fc38fb69839bf94552637a0fb70a975b683c03b2e86a0a),
    (32, 0xf99c35ec396eac81d77318ce43e46972a2e4c1e483075c010f265966caa0523e),
    (32, 0x465d56350a34bfc003742dcdc2732afefd5e91773624015f10fd76b39ed5ef41),
    (32, 0x7fb7cc6c7ac03ed8672d3c926467aaa18d30572271b700a4ae015d642bdeda4f),
    (32, 0x5a0015ba63e0f844e8a00e13d005851dba903460f13ead50f6faa73377730010)].flatMap
    fun p => leBytes p.1 p.2

def sealedStorageKey : List UInt8 :=
  [(32, 0x8faa759c21c577218d865ed498fa5d988796e3c159b2c238fbd3a2bb58123c4d),
    (32, 0x8c4a3fc630d993fde9305db07d824f64741929a3fc253f0dc7817b7a9c50ef93),
    (32, 0xc8c135aea6eb81fb1db1020c3f0190d8eca1ac3711ebfc7248b003d017ac59ac),
    (32, 0x2b4cee71168e32a7b434b2970006802f4a64e52347212b967db751de857b98fc),
    (32, 0xf41e1348009eb3543878b7d7690647f20ca7e50446643f5ef44652ae380c557c),
    (32, 0x66992f21e9a57ecfbaaf04b8c60056f3e8af9fd8fde67466fefd4fd9c2c274fe),
    (32, 0xcbad2f95a26da807b3834da67355c16098acf561b74ce7ca28635c3a5aa179bb),
    (32, 0x244224689e6e9cce35d71c79350885a6d281735f28ca9376d0f2f532f390518b),
    (16, 0x6cd57d871609d2ea2969e1a7bf1b3f3)].flatMap
    fun p => leBytes p.1 p.2

def plainStorageKey : List UInt8 := leBytes 4 260 ++ storageKey ++ .replicate 12 0

/-- A map with the key 5 of the export settings -/
def plainMap : List UInt8 := leBytes 16 0x05000000000000001300000000000010

def sealedMap : List UInt8 := leBytes 16 0xba3e563d29fb59687c6102e289c38223

theorem length_swap {a b : List UInt8} (h : a.length = b.length) (data : List UInt8) :
    (Equiv.swap a b data).length = data.length := by
  rw [Equiv.swap_apply_def]
  split
  · next ha => rw [ha, h]
  · split
    · next hb => rw [hb, h]
    · rfl

/-- SHA-1 and AES for the key and the map. -/
def storageCrypto : LocalCrypto where
  sha1 data :=
    leBytes 20 <|
      if data.length = 272 then 0xc4c2b7b58f3388e9989a14a8dc2af0d24d52a380
      else if data.length = 16 then 0xbfb946b1ba17158bc1115af8f85c8aea32883de8
      else
        match data.headD 0, data.getD 16 0 with
        | 0x80, 0x42 => 0x8c15752f39e25b8a5c66c414bcfd20523fb6a412
        | 0x05, _ => 0x09db41d4f578d89ad5010c7fd07f81b19191a5a3
        | 0x4f, _ => 0x7697e16cd23e896cdb879995acc41ceaabe23505
        | 0x80, _ => 0x40745c925f0c9124802de8853b22d49f78f118bb
        | 0xe8, 0x10 => 0x17da2f6d70bcf430ad284ef8577d3bf6759f56ea
        | 0x6b, _ => 0x5d4a64505ce7f25331471a4f6e0da0eed1075d8e
        | 0xb6, _ => 0x80667f6fcf3ca950477f35a129eed05daeea17c7
        | _, _ => 0xbc18d5ce77d87744f4a6ed812dacad7ae626e32e
  igeEncrypt _ _ data :=
    Equiv.swap plainStorageKey sealedStorageKey (Equiv.swap plainMap sealedMap data)
  igeDecrypt _ _ data :=
    Equiv.swap plainMap sealedMap (Equiv.swap plainStorageKey sealedStorageKey data)
  length_sha1 data := length_leBytes 20 _
  length_igeEncrypt key iv data _ := by
    rw [length_swap (by decide +kernel), length_swap (by decide +kernel)]
  decrypt_encrypt key iv data _ := by
    rw [Equiv.swap_apply_self, Equiv.swap_apply_self]

def newStorage : Env where
  qt := qt64
  ssl := storageCrypto
  createLocalKey pass _ := if pass = [] then emptyPassKey else storageKey
  length_createLocalKey pass salt := by split <;> decide +kernel
  isNightMode := false
  userSettings := []
  readSettings _ := true
  webLocations _ := []

def zeroSalt : List UInt8 := .replicate 32 0

theorem length_zeroSalt : zeroSalt.length = 32 := List.length_replicate

def zeroSecrets : State.Secrets where
  pass := .replicate 256 0
  salt := zeroSalt
  passKeySalt := zeroSalt
  length_passKeySalt := length_zeroSalt
  keyIo := {}

def firstRun : List Step :=
  [.change { exportSettingsKey := 5 } ∅ ∅ fun _ => {}, .writeMap [] zeroSecrets {}]

def afterFirstRun : Session := firstRun.foldl (Step.run newStorage) {}

def firstWritten : Written := ⟨[], [], ∅, ∅, { exportSettingsKey := 5 }⟩

end TelegramClient.Local
