import TelegramClient.Storage.LocalMap

/-! The map of the local storage is read as it was written. -/

namespace TelegramClient.Local

open DataStream Std

variable {env : Env} {night : Bool} {e e' e'' : Entries} {bytes bytes' : List UInt8} {k : Lsk}
  {key : FileKey}

/-! ### Entries -/

theorem lskOf_value (k : Lsk) : lskOf k.value = some k := by
  cases k <;> decide

/-- The bytes are read from one state of the variables to another one. -/
def Reads (night : Bool) (bytes : List UInt8) (e e' : Entries) : Prop :=
  ∀ (rest : List UInt8) (fuel : Nat), bytes.length + rest.length ≤ fuel →
    ∃ fuel', rest.length ≤ fuel' ∧
      readEntries night fuel e ⟨bytes ++ rest, true⟩ = readEntries night fuel' e' ⟨rest, true⟩

theorem reads_nil : Reads night [] e e := fun _ fuel hfuel => ⟨fuel, by simpa using hfuel, rfl⟩

theorem Reads.append (h : Reads night bytes e e') (h' : Reads night bytes' e' e'') :
    Reads night (bytes ++ bytes') e e'' := by
  intro rest fuel hfuel
  rw [List.length_append] at hfuel
  obtain ⟨fuel₁, hfuel₁, hread₁⟩ := h (bytes' ++ rest) fuel (by rw [List.length_append]; omega)
  rw [List.length_append] at hfuel₁
  obtain ⟨fuel₂, hfuel₂, hread₂⟩ := h' rest fuel₁ hfuel₁
  exact ⟨fuel₂, hfuel₂, by rw [List.append_assoc, hread₁, hread₂]⟩

theorem Reads.result (h : Reads night bytes e e') :
    readEntries night bytes.length e ⟨bytes, true⟩ = some (e', ⟨[], true⟩) := by
  obtain ⟨fuel, -, hread⟩ := h [] bytes.length (by simp)
  rw [List.append_nil] at hread
  rw [hread]
  cases fuel <;> rfl

theorem reads_entry {payload : List UInt8}
    (h : ∀ rest, readEntry night k e ⟨payload ++ rest, true⟩ = some (e', ⟨rest, true⟩)) :
    Reads night (writeUInt32 k.value ++ payload) e e' := by
  intro rest fuel hfuel
  rw [List.length_append, length_writeUInt32] at hfuel
  obtain ⟨fuel, rfl⟩ : ∃ n, fuel = n + 1 := ⟨fuel - 1, by omega⟩
  refine ⟨fuel, by omega, ?_⟩
  have hne : writeUInt32 k.value ++ payload ++ rest ≠ [] := by
    intro hnil
    have hlen := congrArg List.length hnil
    simp only [List.length_append, length_writeUInt32, List.length_nil] at hlen
    omega
  rw [readEntries]
  dsimp only
  rw [if_neg hne, List.append_assoc, bind_some (readUInt32_append _ _ _), lskOf_value]
  dsimp only
  have hstatus : status ⟨rest, true⟩ = some (true, ⟨rest, true⟩) := rfl
  rw [bind_some (h rest), bind_some hstatus, stopUnless_true true rfl]

/-- Keys are read. -/
def Entries.setKeys (e : Entries) (set : Keys → Keys) : Entries := { e with keys := set e.keys }

theorem readKey_append (set : FileKey → Keys → Keys) (e : Entries) (key : FileKey)
    (rest : List UInt8) :
    readKey set e ⟨writeUInt64 key ++ rest, true⟩ =
      some (e.setKeys (set key), ⟨rest, true⟩) := by
  rw [readKey, bind_some (readUInt64_append key rest true)]
  rfl

/-- A key that is not written is zero, as the variable is. -/
theorem reads_key {set : FileKey → Keys → Keys} (hread : readEntry night k e = readKey set e)
    (hzero : set 0 e.keys = e.keys) :
    Reads night (writeKey k key) e (e.setKeys (set key)) := by
  rw [writeKey]
  split
  · refine reads_entry fun rest => ?_
    rw [hread, readKey_append]
  · next hkey =>
    rw [not_not.mp hkey, Entries.setKeys, hzero]
    exact reads_nil

/-! ### Drafts -/

theorem readDraftKeys_append (insert : PeerId → FileKey → Entries → Entries)
    (ps : List (PeerId × FileKey)) (e : Entries) (rest : List UInt8) :
    readDraftKeys insert ps.length e
        ⟨(ps.flatMap fun p => writeUInt64 p.2 ++ writeUInt64 p.1) ++ rest, true⟩ =
      some (ps.foldl (fun e p => insert p.1 p.2 e) e, ⟨rest, true⟩) := by
  induction ps generalizing e with
  | nil => rfl
  | cons p ps ih =>
    rw [List.length_cons, readDraftKeys, List.flatMap_cons, List.append_assoc, List.append_assoc,
      bind_some (readUInt64_append _ _ _), bind_some (readUInt64_append _ _ _), ih]
    rfl

theorem reads_draftKeys {insert : PeerId → FileKey → Entries → Entries} {drafts : DraftsMap}
    (hsize : drafts.size < 2 ^ 32)
    (hread : readEntry night k e = do
      let count ← readUInt32
      readDraftKeys insert count.toNat e) :
    Reads night (writeDraftKeys k drafts) e (drafts.toList.foldl (fun e p => insert p.1 p.2 e) e) := by
  rw [writeDraftKeys]
  split
  · next hempty =>
    rw [ExtTreeMap.isEmpty_iff.mp hempty]
    exact reads_nil
  · rw [List.append_assoc]
    refine reads_entry fun rest => ?_
    have hcount : (UInt32.ofNat drafts.size).toNat = drafts.toList.length := by
      rw [UInt32.toNat_ofNat_of_lt' hsize, ExtTreeMap.length_toList]
    rw [hread, List.append_assoc, bind_some (readUInt32_append _ _ _), hcount,
      readDraftKeys_append]

theorem foldl_insert_toList {β : Type} (t : ExtTreeMap UInt64 β compare) :
    t.toList.foldl (fun m p => m.insert p.1 p.2) (∅ : ExtTreeMap UInt64 β compare) = t := by
  rw [← ExtTreeMap.ofList_eq_foldl, ExtTreeMap.ofList_toList]

theorem reads_drafts {drafts : DraftsMap} (hsize : drafts.size < 2 ^ 32)
    (hempty : e.draftsMap = ∅ ∧ e.draftsNotReadMap = ∅) :
    Reads night (writeDraftKeys .draft drafts) e
      { e with draftsMap := drafts, draftsNotReadMap := drafts.map fun _ _ => true } := by
  have hfold : ∀ (ps : List (PeerId × FileKey)) (e : Entries),
      ps.foldl (fun e p => { e with
        draftsMap := e.draftsMap.insert p.1 p.2
        draftsNotReadMap := e.draftsNotReadMap.insert p.1 true }) e =
      { e with
        draftsMap := ps.foldl (fun m p => m.insert p.1 p.2) e.draftsMap
        draftsNotReadMap := (ps.map fun p => (p.1, true)).foldl
          (fun m p => m.insert p.1 p.2) e.draftsNotReadMap } := by
    intro ps
    induction ps with
    | nil => exact fun _ => rfl
    | cons p ps ih => exact fun e => ih _
  have hread := @reads_draftKeys night e .draft (fun p key e => { e with
    draftsMap := e.draftsMap.insert p key
    draftsNotReadMap := e.draftsNotReadMap.insert p true }) drafts hsize rfl
  have hnot := foldl_insert_toList (drafts.map fun _ _ => true)
  rw [ExtTreeMap.toList_map] at hnot
  rw [hfold, hempty.1, hempty.2, foldl_insert_toList, hnot] at hread
  exact hread

theorem reads_draftCursors {drafts : DraftsMap} (hsize : drafts.size < 2 ^ 32)
    (hempty : e.draftCursorsMap = ∅) :
    Reads night (writeDraftKeys .draftPosition drafts) e { e with draftCursorsMap := drafts } := by
  have hfold : ∀ (ps : List (PeerId × FileKey)) (e : Entries),
      ps.foldl (fun e p => { e with draftCursorsMap := e.draftCursorsMap.insert p.1 p.2 }) e =
      { e with draftCursorsMap := ps.foldl (fun m p => m.insert p.1 p.2) e.draftCursorsMap } := by
    intro ps
    induction ps with
    | nil => exact fun _ => rfl
    | cons p ps ih => exact fun e => ih _
  have hread := @reads_draftKeys night e .draftPosition (fun p key e => { e with
    draftCursorsMap := e.draftCursorsMap.insert p key }) drafts hsize rfl
  rw [hfold, hempty, foldl_insert_toList] at hread
  exact hread

/-! ### The whole map -/

theorem reads_self {self : List UInt8} (hsize : self.length < 2 ^ 31)
    (hempty : e.selfSerialized = []) :
    Reads night (if self = [] then [] else writeUInt32 Lsk.selfSerialized.value ++ writeBytes self)
      e { e with selfSerialized := self } := by
  split
  · next hself =>
    obtain rfl : self = e.selfSerialized := hself.trans hempty.symm
    exact reads_nil
  · refine reads_entry fun rest => ?_
    rw [readEntry, bind_some (readByteArray_append hsize rest)]
    rfl

theorem reads_stickers (keys : Keys) (hzero : e.keys.installedStickersKey = 0 ∧
    e.keys.featuredStickersKey = 0 ∧ e.keys.recentStickersKey = 0 ∧
    e.keys.archivedStickersKey = 0) :
    Reads night
      (if keys.installedStickersKey ≠ 0 ∨ keys.featuredStickersKey ≠ 0 ∨
          keys.recentStickersKey ≠ 0 ∨ keys.archivedStickersKey ≠ 0 then
        writeUInt32 Lsk.stickersKeys.value ++ writeUInt64 keys.installedStickersKey ++
          writeUInt64 keys.featuredStickersKey ++ writeUInt64 keys.recentStickersKey ++
          writeUInt64 keys.archivedStickersKey
      else []) e
      (e.setKeys fun k => { k with
        installedStickersKey := keys.installedStickersKey
        featuredStickersKey := keys.featuredStickersKey
        recentStickersKey := keys.recentStickersKey
        archivedStickersKey := keys.archivedStickersKey }) := by
  split
  · rw [List.append_assoc, List.append_assoc, List.append_assoc]
    refine reads_entry fun rest => ?_
    rw [List.append_assoc, List.append_assoc, List.append_assoc, readEntry,
      bind_some (readKey_append _ _ _ _), bind_some (readKey_append _ _ _ _),
      bind_some (readKey_append _ _ _ _), readKey_append]
    rfl
  · next hkeys =>
    simp only [not_or, not_not] at hkeys
    rw [hkeys.1.trans hzero.1.symm, hkeys.2.1.trans hzero.2.1.symm,
      hkeys.2.2.1.trans hzero.2.2.1.symm, hkeys.2.2.2.trans hzero.2.2.2.symm]
    exact reads_nil

theorem reads_background (keys : Keys)
    (hzero : e.keys.backgroundKeyDay = 0 ∧ e.keys.backgroundKeyNight = 0) :
    Reads night
      (if keys.backgroundKeyDay ≠ 0 ∨ keys.backgroundKeyNight ≠ 0 then
        writeUInt32 Lsk.background.value ++ writeUInt64 keys.backgroundKeyDay ++
          writeUInt64 keys.backgroundKeyNight
      else []) e
      (e.setKeys fun k => { k with
        backgroundKeyDay := keys.backgroundKeyDay
        backgroundKeyNight := keys.backgroundKeyNight }) := by
  split
  · rw [List.append_assoc]
    refine reads_entry fun rest => ?_
    rw [List.append_assoc, readEntry, bind_some (readKey_append _ _ _ _), readKey_append]
    rfl
  · next hkeys =>
    simp only [not_or, not_not] at hkeys
    rw [hkeys.1.trans hzero.1.symm, hkeys.2.trans hzero.2.symm]
    exact reads_nil

/-- The variables with these keys. -/
def mapEntries (self : List UInt8) (drafts cursors : DraftsMap) (keys : Keys) : Entries where
  selfSerialized := self
  draftsMap := drafts
  draftCursorsMap := cursors
  draftsNotReadMap := drafts.map fun _ _ => true
  keys := keys

theorem reads_mapStream {self : List UInt8} {drafts cursors : DraftsMap} (keys : Keys)
    (hself : self.length < 2 ^ 31) (hdrafts : drafts.size < 2 ^ 32)
    (hcursors : cursors.size < 2 ^ 32) :
    Reads night (mapStream self drafts cursors keys) {} (mapEntries self drafts cursors keys) := by
  obtain ⟨k1, k2, k3, k4, k5, k6, k7, k8, k9, k10, k11, k12, k13, k14, k15, k16⟩ := keys
  -- every entry sets its keys, which are zero before
  have h0 : Reads night _ {} (mapEntries self drafts cursors {}) :=
    ((@reads_self night {} self hself rfl).append (reads_drafts hdrafts ⟨rfl, rfl⟩)).append
      (reads_draftCursors hcursors rfl)
  have h1 : Reads night _ {} (mapEntries self drafts cursors
      ⟨k1, 0, 0, 0, 0, 0, 0, 0, 0, 0, 0, 0, 0, 0, 0, 0⟩) :=
    h0.append (@reads_key night _ .locations k1
      (fun key keys => { keys with locationsKey := key }) rfl rfl)
  have h2 : Reads night _ {} (mapEntries self drafts cursors
      ⟨k1, k2, 0, 0, 0, 0, 0, 0, 0, 0, 0, 0, 0, 0, 0, 0⟩) :=
    h1.append (@reads_key night _ .reportSpamStatuses k2
      (fun key keys => { keys with reportSpamStatusesKey := key }) rfl rfl)
  have h3 : Reads night _ {} (mapEntries self drafts cursors
      ⟨k1, k2, k3, 0, 0, 0, 0, 0, 0, 0, 0, 0, 0, 0, 0, 0⟩) :=
    h2.append (@reads_key night _ .trustedBots k3
      (fun key keys => { keys with trustedBotsKey := key }) rfl rfl)
  have h4 : Reads night _ {} (mapEntries self drafts cursors
      ⟨k1, k2, k3, k4, 0, 0, 0, 0, 0, 0, 0, 0, 0, 0, 0, 0⟩) :=
    h3.append (@reads_key night _ .recentStickersOld k4
      (fun key keys => { keys with recentStickersKeyOld := key }) rfl rfl)
  have h5 : Reads night _ {} (mapEntries self drafts cursors
      ⟨k1, k2, k3, k4, k5, k6, k7, 0, k9, 0, 0, 0, 0, 0, 0, 0⟩) :=
    h4.append (reads_stickers ⟨k1, k2, k3, k4, k5, k6, k7, k8, k9, k10, k11, k12, k13, k14, k15, k16⟩
      ⟨rfl, rfl, rfl, rfl⟩)
  have h6 : Reads night _ {} (mapEntries self drafts cursors
      ⟨k1, k2, k3, k4, k5, k6, k7, k8, k9, 0, 0, 0, 0, 0, 0, 0⟩) :=
    h5.append (@reads_key night _ .favedStickers k8
      (fun key keys => { keys with favedStickersKey := key }) rfl rfl)
  have h7 : Reads night _ {} (mapEntries self drafts cursors
      ⟨k1, k2, k3, k4, k5, k6, k7, k8, k9, k10, 0, 0, 0, 0, 0, 0⟩) :=
    h6.append (@reads_key night _ .savedGifs k10
      (fun key keys => { keys with savedGifsKey := key }) rfl rfl)
  have h8 : Reads night _ {} (mapEntries self drafts cursors
      ⟨k1, k2, k3, k4, k5, k6, k7, k8, k9, k10, k11, 0, 0, 0, 0, 0⟩) :=
    h7.append (@reads_key night _ .savedPeers k11
      (fun key keys => { keys with savedPeersKey := key }) rfl rfl)
  have h9 : Reads night _ {} (mapEntries self drafts cursors
      ⟨k1, k2, k3, k4, k5, k6, k7, k8, k9, k10, k11, k12, k13, 0, 0, 0⟩) :=
    h8.append (reads_background ⟨k1, k2, k3, k4, k5, k6, k7, k8, k9, k10, k11, k12, k13, k14, k15, k16⟩
      ⟨rfl, rfl⟩)
  have h10 : Reads night _ {} (mapEntries self drafts cursors
      ⟨k1, k2, k3, k4, k5, k6, k7, k8, k9, k10, k11, k12, k13, k14, 0, 0⟩) :=
    h9.append (@reads_key night _ .userSettings k14
      (fun key keys => { keys with userSettingsKey := key }) rfl rfl)
  have h11 : Reads night _ {} (mapEntries self drafts cursors
      ⟨k1, k2, k3, k4, k5, k6, k7, k8, k9, k10, k11, k12, k13, k14, k15, 0⟩) :=
    h10.append (@reads_key night _ .recentHashtagsAndBots k15
      (fun key keys => { keys with recentHashtagsAndBotsKey := key }) rfl rfl)
  have h12 : Reads night _ {} (mapEntries self drafts cursors
      ⟨k1, k2, k3, k4, k5, k6, k7, k8, k9, k10, k11, k12, k13, k14, k15, k16⟩) :=
    h11.append (@reads_key night _ .exportSettings k16
      (fun key keys => { keys with exportSettingsKey := key }) rfl rfl)
  exact h12

end TelegramClient.Local
