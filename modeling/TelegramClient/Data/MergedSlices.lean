import TelegramClient.Data.SparseIds

/-! The indices of a merged slice. -/

namespace TelegramClient.Data

open OrderedSets

variable {peerId : PeerId} {fullId : FullMsgId} {channelId chatId : Int32} {id msgId : Int}

theorem peerIsChannel_peerFromChannel (channelId : Int32) :
    peerIsChannel (peerFromChannel channelId) = true :=
  hasShift_peerOfShift (k := 2) (by omega) rfl channelId

theorem peerIsChannel_peerFromChat (chatId : Int32) : peerIsChannel (peerFromChat chatId) = false :=
  hasShift_peerOfShift (k := 1) (by omega) rfl chatId

theorem peerIsChannel_peerFromUser (userId : Int32) : peerIsChannel (peerFromUser userId) = false :=
  hasShift_peerOfShift (k := 0) (by omega) (by decide) userId

theorem peerToBareInt_peerFromChannel (channelId : Int32) :
    peerToBareInt (peerFromChannel channelId) = channelId :=
  peerToBareInt_peerOfShift (k := 2) rfl channelId

namespace SparseIdsMergedSlice

theorem computeId_of_channel (h : peerIsChannel peerId) (msgId : Int) :
    computeId peerId msgId = ⟨peerToBareInt peerId, msgId⟩ :=
  congrArg (FullMsgId.mk · msgId) (if_pos h)

theorem computeId_of_not_channel (h : peerIsChannel peerId = false) (msgId : Int) :
    computeId peerId msgId = ⟨0, msgId⟩ :=
  congrArg (FullMsgId.mk · msgId) (if_neg (Bool.eq_false_iff.mp h))

theorem computeId_peerFromChannel (channelId : Int32) (msgId : Int) :
    computeId (peerFromChannel channelId) msgId = ⟨channelId, msgId⟩ := by
  rw [computeId_of_channel (peerIsChannel_peerFromChannel channelId), peerToBareInt_peerFromChannel]

theorem computeId_peerFromChat (chatId : Int32) (msgId : Int) :
    computeId (peerFromChat chatId) msgId = ⟨0, msgId⟩ :=
  computeId_of_not_channel (peerIsChannel_peerFromChat chatId) msgId

theorem isFromSlice_eq : isFromSlice peerId fullId =
    if peerIsChannel peerId then peerId == peerFromChannel fullId.channel
    else fullId.channel == 0 := rfl

theorem isFromSlice_peerFromChannel :
    isFromSlice (peerFromChannel channelId) fullId ↔ fullId.channel = channelId := by
  rw [isFromSlice_eq, peerIsChannel_peerFromChannel, if_pos rfl, beq_iff_eq]
  constructor
  · intro h
    have hbare := congrArg peerToBareInt h
    rw [peerToBareInt_peerFromChannel, peerToBareInt_peerFromChannel] at hbare
    exact hbare.symm
  · rintro rfl
    rfl

theorem isFromSlice_of_not_channel (h : peerIsChannel peerId = false) :
    isFromSlice peerId fullId ↔ fullId.channel = 0 := by
  rw [isFromSlice_eq, h, if_neg (by decide), beq_iff_eq]

/-- The ids that are from a peer are those that are made with it. -/
theorem isFromSlice_iff (h : IsPeer peerId) :
    isFromSlice peerId fullId ↔ fullId = computeId peerId fullId.msg := by
  obtain ⟨bareId, rfl | rfl | rfl⟩ := h
  · rw [isFromSlice_of_not_channel (peerIsChannel_peerFromUser bareId),
      computeId_of_not_channel (peerIsChannel_peerFromUser bareId)]
    simp [FullMsgId.ext_iff]
  · rw [isFromSlice_of_not_channel (peerIsChannel_peerFromChat bareId), computeId_peerFromChat]
    simp [FullMsgId.ext_iff]
  · rw [isFromSlice_peerFromChannel, computeId_peerFromChannel]
    simp [FullMsgId.ext_iff]

/-- A key that a viewer takes: of a message of the peer, or of the chat that a channel was before.
-/
structure Valid (m : SparseIdsMergedSlice) : Prop where
  universalId : isServerMsgId m.key.universalId ∨
    isServerMsgId (serverMaxMsgId + m.key.universalId) ∧ m.migrated.isSome
  peer : IsPeer m.key.peerId
  migrated : m.migrated.isSome → (∃ channelId, channelId ≠ 0 ∧ m.key.peerId = peerFromChannel channelId) ∧
    ∃ chatId, m.key.migratedPeerId = peerFromChat chatId

variable {m : SparseIdsMergedSlice} {i : Nat}

/-- The part is not read when it is not there. -/
theorem Valid.isSome_migrated (h : m.Valid) :
    (m.isolatedInPart = false → m.migrated.isSome) ∧
      (isServerMsgId (serverMaxMsgId + m.key.universalId) → m.migrated.isSome) := by
  rcases h.universalId with hid | ⟨hid, hsome⟩
  · refine ⟨fun hpart => ?_, fun hid' => ?_⟩
    · by_contra hnone
      simp [isolatedInPart, hid, hnone] at hpart
    · rw [isServerMsgId_iff] at hid hid'
      rw [serverMaxMsgId] at hid'
      omega
  · exact ⟨fun _ => hsome, fun _ => hsome⟩

theorem not_isolated_in_both : ¬(m.isolatedInPart ∧ m.isolatedInMigrated) := by
  rintro ⟨hpart, hmigrated⟩
  have hid := isServerMsgId_iff.mp (Bool.and_eq_true_iff.mp hpart).1
  have hid' := isServerMsgId_iff.mp (Bool.and_eq_true_iff.mp hmigrated).1
  rw [serverMaxMsgId] at hid'
  omega

/-- The migrated messages that have an index. -/
def before (m : SparseIdsMergedSlice) : List FullMsgId :=
  if m.isolatedInPart then [] else m.migratedSlice.ids.items.map (computeId m.key.migratedPeerId)

def after (m : SparseIdsMergedSlice) : List FullMsgId :=
  m.part.ids.items.map (computeId m.key.peerId)

def shown (m : SparseIdsMergedSlice) : List FullMsgId :=
  m.before ++ if m.isolatedInMigrated then [] else m.after

theorem before_eq : m.before = if m.isolatedInPart then []
    else m.migratedSlice.ids.items.map (computeId m.key.migratedPeerId) := rfl

theorem after_eq : m.after = m.part.ids.items.map (computeId m.key.peerId) := rfl

theorem shown_eq : m.shown = m.before ++ if m.isolatedInMigrated then [] else m.after := rfl

theorem length_before : m.before.length = m.migratedSize := by
  rw [before_eq, migratedSize]
  split
  · rfl
  · exact List.length_map _

theorem size_eq : m.size = m.shown.length := by
  rw [shown_eq, List.length_append, length_before, size]
  congr 1
  · rw [migratedSize]
    split <;> rfl
  · split
    · rfl
    · exact (List.length_map _).symm

theorem element_eq : m.element i = m.shown[i]? := by
  have hsize := size_eq (m := m)
  rw [element]
  split
  · next hle => rw [List.getElem?_eq_none (by omega)]
  · next hlt =>
    split
    · next hbefore =>
      rw [shown_eq, List.getElem?_append_left (by rw [length_before]; exact hbefore), before_eq, if_neg,
        List.getElem?_map]
      · rfl
      · intro hpart
        simp [migratedSize, hpart] at hbefore
    · next hbefore =>
      rw [shown_eq, List.getElem?_append_right (by rw [length_before]; omega), length_before, if_neg]
      · rw [after_eq, List.getElem?_map]
        rfl
      · intro hmigrated
        rw [shown_eq, if_pos hmigrated, List.append_nil, length_before] at hsize
        omega

theorem Valid.migrated_not_from_part (h : m.Valid) (hsome : m.migrated.isSome) (msgId : Int) :
    m.isFromPart (computeId m.key.migratedPeerId msgId) = false := by
  obtain ⟨⟨channelId, hne, hpeer⟩, chatId, hchat⟩ := h.migrated hsome
  rw [isFromPart, hpeer, hchat, computeId_peerFromChat, Bool.eq_false_iff]
  intro hfrom
  exact hne (isFromSlice_peerFromChannel.mp hfrom).symm

theorem mem_before_isFromSlice (h : m.Valid) (hmem : fullId ∈ m.before) :
    m.isFromPart fullId = false := by
  rw [before_eq] at hmem
  split at hmem
  · cases hmem
  · next hpart =>
    obtain ⟨msgId, -, rfl⟩ := List.mem_map.mp hmem
    exact h.migrated_not_from_part (h.isSome_migrated.1 (by simpa using hpart)) msgId

theorem mem_after_isFromSlice (h : m.Valid) (hmem : fullId ∈ m.after) : m.isFromPart fullId := by
  obtain ⟨msgId, -, rfl⟩ := List.mem_map.mp hmem
  exact (isFromSlice_iff h.peer).mpr rfl

/-- The index of a message is its place after the migrated ones, whether the part is shown or not.
-/
theorem indexOf_eq_some_iff (h : m.Valid) :
    m.indexOf fullId = some i ↔ (m.before ++ m.after)[i]? = some fullId := by
  rw [indexOf]
  split
  · next hpart =>
    have hid := (isFromSlice_iff h.peer).mp hpart
    have hmap : ∀ j : Nat, m.after[j]? = some fullId ↔ m.part.ids.items[j]? = some fullId.msg := by
      intro j
      rw [after_eq, List.getElem?_map, Option.map_eq_some_iff]
      constructor
      · rintro ⟨msgId, hget, rfl⟩
        exact hget
      · intro hget
        exact ⟨_, hget, hid.symm⟩
    simp only [Option.map_eq_some_iff, SparseIdsSlice.indexOf, OrderedSet.indexOf_eq_some_iff,
      ← hmap, ← length_before]
    constructor
    · rintro ⟨j, hget, rfl⟩
      rw [List.getElem?_append_right (by omega), Nat.add_sub_cancel]
      exact hget
    · intro hget
      by_cases hlt : i < m.before.length
      · rw [List.getElem?_append_left hlt] at hget
        have hfalse := mem_before_isFromSlice h (List.mem_of_getElem? hget)
        rw [hpart] at hfalse
        cases hfalse
      · rw [List.getElem?_append_right (by omega)] at hget
        exact ⟨_, hget, by omega⟩
  · next hpart =>
    have hright : m.before[i]? = some fullId ↔ (m.before ++ m.after)[i]? = some fullId := by
      by_cases hlt : i < m.before.length
      · rw [List.getElem?_append_left hlt]
      · rw [List.getElem?_append_right (by omega), List.getElem?_eq_none (by omega)]
        constructor
        · intro hnone
          cases hnone
        · intro hget
          exact absurd (mem_after_isFromSlice h (List.mem_of_getElem? hget)) hpart
    rw [← hright, before_eq]
    split
    · simp
    · next hisolated =>
      have hsome := h.isSome_migrated.1 (by simpa using hisolated)
      obtain ⟨-, chatId, hchat⟩ := h.migrated hsome
      have hpeer : IsPeer m.key.migratedPeerId := ⟨chatId, Or.inr (Or.inl hchat)⟩
      rw [isFromMigrated, hsome, Bool.true_and, List.getElem?_map, Option.map_eq_some_iff]
      split
      · next hfrom =>
        have hid := (isFromSlice_iff hpeer).mp hfrom
        rw [SparseIdsSlice.indexOf, OrderedSet.indexOf_eq_some_iff]
        constructor
        · intro hget
          exact ⟨_, hget, hid.symm⟩
        · rintro ⟨msgId, hget, rfl⟩
          exact hget
      · next hfrom =>
        constructor
        · intro hnone
          cases hnone
        · rintro ⟨msgId, hget, rfl⟩
          exact absurd ((isFromSlice_iff hpeer).mpr rfl) hfrom

theorem exists_element (h : m.Valid) (hi : i < m.size) :
    ∃ fullId, m.element i = some fullId ∧ m.indexOf fullId = some i := by
  rw [size_eq] at hi
  refine ⟨_, element_eq.trans (List.getElem?_eq_getElem hi), ?_⟩
  rw [indexOf_eq_some_iff h, ← List.getElem?_eq_getElem hi, shown_eq]
  split
  · next hisolated =>
    rw [shown_eq, if_pos hisolated, List.append_nil] at hi
    rw [List.append_nil, List.getElem?_append_left hi]
  · rfl

/-- How far a message is from an id: its own slice measures, and the other slice measures from the
end that touches. -/
def gap (m : SparseIdsMergedSlice) (id : Int) (fullId : FullMsgId) : Nat ×ₗ (Nat ×ₗ Int) :=
  if isServerMsgId id then
    if m.isFromPart fullId then toLex (0, Data.gap id fullId.msg)
    else toLex (1, Data.gap (serverMaxMsgId - 1) fullId.msg)
  else
    if m.isFromPart fullId then toLex (1, Data.gap 0 fullId.msg)
    else toLex (0, Data.gap (id + serverMaxMsgId) fullId.msg)

/-- The message is one of those that have an index, and none of them is nearer. -/
def IsNearest (m : SparseIdsMergedSlice) (id : Int) (r : FullMsgId) : Prop :=
  (∃ i < m.size, m.element i = some r) ∧
    ∀ i < m.size, ∀ other, m.element i = some other → m.gap id r ≤ m.gap id other

structure Consistent (m : SparseIdsMergedSlice) : Prop where
  indexOf_element : ∀ i < m.size, ∃ fullId, m.element i = some fullId ∧ m.indexOf fullId = some i
  element_indexOf : ∀ fullId i, m.indexOf fullId = some i → i < m.size ∧ m.element i = some fullId
  nearest : ∀ id r, m.nearest id = some r → m.IsNearest id r
  no_nearest : ∀ id, m.nearest id = none → m.size = 0

theorem mem_shown_iff : fullId ∈ m.shown ↔ ∃ i < m.size, m.element i = some fullId := by
  rw [List.mem_iff_getElem?]
  constructor
  · rintro ⟨i, hi⟩
    refine ⟨i, ?_, element_eq.trans hi⟩
    rw [size_eq]
    exact (List.getElem?_eq_some_iff.mp hi).1
  · rintro ⟨i, -, hi⟩
    exact ⟨i, element_eq.symm.trans hi⟩

theorem isNearest_iff {r : FullMsgId} :
    m.IsNearest id r ↔ r ∈ m.shown ∧ ∀ other ∈ m.shown, m.gap id r ≤ m.gap id other := by
  simp only [IsNearest, mem_shown_iff]
  exact and_congr_right fun _ =>
    ⟨fun h other ⟨i, hi, hother⟩ => h i hi other hother,
      fun h i hi other hother => h other ⟨i, hi, hother⟩⟩

theorem mem_before_iff : fullId ∈ m.before ↔ m.isolatedInPart = false ∧
    ∃ msgId ∈ m.migratedSlice.ids, computeId m.key.migratedPeerId msgId = fullId := by
  rw [before_eq]
  split
  · next h => simp [h]
  · next h => simp [h, OrderedSet.mem_def]

theorem mem_after_iff : fullId ∈ m.after ↔
    ∃ msgId ∈ m.part.ids, computeId m.key.peerId msgId = fullId := by
  simp [after_eq, OrderedSet.mem_def]

theorem gap_le_of_le {k k' : Nat} {a a' : Nat ×ₗ Int} (hk : k = k') (ha : a ≤ a') :
    (toLex (k, a) : Nat ×ₗ (Nat ×ₗ Int)) ≤ toLex (k', a') := by
  rw [Prod.Lex.toLex_le_toLex]
  exact Or.inr ⟨hk, ha⟩

theorem zero_le_one_gap (a a' : Nat ×ₗ Int) :
    (toLex (0, a) : Nat ×ₗ (Nat ×ₗ Int)) ≤ toLex (1, a') := by
  rw [Prod.Lex.toLex_le_toLex]
  exact Or.inl Nat.zero_lt_one

/-- The nearest element of a part that is shown is the nearest of all when the id is there, or when
nothing of the other part is shown. -/
theorem isNearest_of_part {msgId : Int} (h : m.Valid) (hshown : m.isolatedInMigrated = false)
    (hnearest : m.part.nearest (if isServerMsgId id then id else 0) = some msgId)
    (hother : isServerMsgId id = false → m.before = []) :
    m.IsNearest id (computeId m.key.peerId msgId) := by
  have hmem : computeId m.key.peerId msgId ∈ m.after :=
    mem_after_iff.mpr ⟨msgId, SparseIdsSlice.mem_of_nearest hnearest, rfl⟩
  rw [isNearest_iff, shown_eq, if_neg (by simp [hshown])]
  refine ⟨List.mem_append_right _ hmem, fun other hothers => ?_⟩
  simp only [gap, mem_after_isFromSlice h hmem, if_true]
  rcases List.mem_append.mp hothers with hbefore | hafter
  · cases hid : isServerMsgId id with
    | true =>
      simp only [mem_before_isFromSlice h hbefore, if_true]
      exact zero_le_one_gap _ _
    | false =>
      rw [hother hid] at hbefore
      cases hbefore
  · simp only [mem_after_isFromSlice h hafter, if_true]
    obtain ⟨otherId, hmem', rfl⟩ := mem_after_iff.mp hafter
    have hle := SparseIdsSlice.gap_nearest hnearest hmem'
    cases hid : isServerMsgId id with
    | true =>
      simp only [hid, if_true] at hle
      exact gap_le_of_le rfl hle
    | false =>
      simp only [hid, Bool.false_eq_true, if_false] at hle
      exact gap_le_of_le rfl hle

theorem isNearest_of_migrated {msgId : Int} (h : m.Valid) (hshown : m.isolatedInPart = false)
    (hnearest : m.migratedSlice.nearest
      (if isServerMsgId id then serverMaxMsgId - 1 else id + serverMaxMsgId) = some msgId)
    (hother : isServerMsgId id → m.after = []) :
    m.IsNearest id (computeId m.key.migratedPeerId msgId) := by
  have hmem : computeId m.key.migratedPeerId msgId ∈ m.before :=
    mem_before_iff.mpr ⟨hshown, msgId, SparseIdsSlice.mem_of_nearest hnearest, rfl⟩
  rw [isNearest_iff, shown_eq]
  refine ⟨List.mem_append_left _ hmem, fun other hothers => ?_⟩
  simp only [gap, mem_before_isFromSlice h hmem, Bool.false_eq_true, if_false]
  rcases List.mem_append.mp hothers with hbefore | hafter
  · simp only [mem_before_isFromSlice h hbefore, Bool.false_eq_true, if_false]
    obtain ⟨-, otherId, hmem', rfl⟩ := mem_before_iff.mp hbefore
    have hle := SparseIdsSlice.gap_nearest hnearest hmem'
    cases hid : isServerMsgId id with
    | true =>
      simp only [hid, if_true] at hle
      exact gap_le_of_le rfl hle
    | false =>
      simp only [hid, Bool.false_eq_true, if_false] at hle
      exact gap_le_of_le rfl hle
  · split at hafter
    · cases hafter
    · cases hid : isServerMsgId id with
      | true =>
        rw [hother hid] at hafter
        cases hafter
      | false =>
        simp only [mem_after_isFromSlice h hafter, if_true]
        exact zero_le_one_gap _ _

theorem bind_nearest (m : SparseIdsMergedSlice) (msgId : Int) :
    m.migrated.bind (·.nearest msgId) = m.migratedSlice.nearest msgId := by
  rw [migratedSlice]
  cases m.migrated with
  | none => rfl
  | some migrated => rfl

theorem before_eq_nil (h : m.isolatedInPart ∨ m.migratedSlice.ids.items = []) : m.before = [] := by
  rw [before_eq]
  split
  · rfl
  · next hpart =>
    rcases h with h | h
    · exact absurd h hpart
    · rw [h, List.map_nil]

theorem after_eq_nil (h : m.part.ids.items = []) : m.after = [] := by
  rw [after_eq, h, List.map_nil]

theorem size_eq_zero (hbefore : m.before = []) (hafter : m.isolatedInMigrated ∨ m.after = []) :
    m.size = 0 := by
  rw [size_eq, shown_eq, hbefore, List.nil_append]
  split
  · rfl
  · next h => rw [hafter.resolve_left h, List.length_nil]

/-- Nothing that is not shown is read. -/
def Unhidden (m : SparseIdsMergedSlice) : Prop :=
  (m.isolatedInMigrated → m.part.ids.items = []) ∧
    (m.isolatedInPart → m.migratedSlice.ids.items = [])

theorem Unhidden.isNearest (hm : m.Unhidden) (h : m.Valid) {r : FullMsgId}
    (hr : m.nearest id = some r) : m.IsNearest id r := by
  rw [nearest, bind_nearest] at hr
  have hshown : ∀ {msgId target : Int}, m.part.nearest target = some msgId →
      m.isolatedInMigrated = false := by
    intro msgId target hnearest
    by_contra hisolated
    rw [SparseIdsSlice.nearest_eq_none_iff.mpr (hm.1 (by simpa using hisolated))] at hnearest
    cases hnearest
  cases hid : isServerMsgId id with
  | true =>
    simp only [hid, if_true] at hr
    cases hpart : m.part.nearest id with
    | some msgId =>
      simp only [hpart] at hr
      cases hr
      exact isNearest_of_part h (hshown hpart) (by simpa only [hid, if_true] using hpart)
        (by simp [hid])
    | none =>
      simp only [hpart] at hr
      split at hr
      · cases hr
      · next hisolated =>
        obtain ⟨msgId, hmigrated, rfl⟩ := Option.map_eq_some_iff.mp hr
        exact isNearest_of_migrated h (by simpa using hisolated)
          (by simpa only [hid, if_true] using hmigrated)
          fun _ => after_eq_nil (SparseIdsSlice.nearest_eq_none_iff.mp hpart)
  | false =>
    simp only [hid, Bool.false_eq_true, if_false] at hr
    cases hmigrated : m.migratedSlice.nearest (id + serverMaxMsgId) with
    | some msgId =>
      simp only [hmigrated] at hr
      cases hr
      refine isNearest_of_migrated h ?_
        (by simpa only [hid, Bool.false_eq_true, if_false] using hmigrated) (by simp [hid])
      by_contra hisolated
      rw [SparseIdsSlice.nearest_eq_none_iff.mpr (hm.2 (by simpa using hisolated))] at hmigrated
      cases hmigrated
    | none =>
      simp only [hmigrated] at hr
      split at hr
      · cases hr
      · next hisolated =>
        obtain ⟨msgId, hpart, rfl⟩ := Option.map_eq_some_iff.mp hr
        exact isNearest_of_part h (hshown hpart)
          (by simpa only [hid, Bool.false_eq_true, if_false] using hpart)
          fun _ => before_eq_nil (Or.inr (SparseIdsSlice.nearest_eq_none_iff.mp hmigrated))

theorem size_eq_zero_of_nearest (hr : m.nearest id = none) : m.size = 0 := by
  rw [nearest, bind_nearest] at hr
  split at hr
  · split at hr
    · cases hr
    · next hpart =>
      have hafter := after_eq_nil (SparseIdsSlice.nearest_eq_none_iff.mp hpart)
      split at hr
      · next hisolated => exact size_eq_zero (before_eq_nil (Or.inl hisolated)) (Or.inr hafter)
      · have hmigrated := SparseIdsSlice.nearest_eq_none_iff.mp (Option.map_eq_none_iff.mp hr)
        exact size_eq_zero (before_eq_nil (Or.inr hmigrated)) (Or.inr hafter)
  · split at hr
    · cases hr
    · next hmigrated =>
      have hbefore := before_eq_nil (Or.inr (SparseIdsSlice.nearest_eq_none_iff.mp hmigrated))
      split at hr
      · next hisolated => exact size_eq_zero hbefore (Or.inl hisolated)
      · have hpart := SparseIdsSlice.nearest_eq_none_iff.mp (Option.map_eq_none_iff.mp hr)
        exact size_eq_zero hbefore (Or.inr (after_eq_nil hpart))

theorem Unhidden.consistent (hm : m.Unhidden) (h : m.Valid) : m.Consistent where
  indexOf_element _ hi := exists_element h hi
  element_indexOf fullId i hindex := by
    have hshown : m.before ++ m.after = m.shown := by
      rw [shown_eq]
      split
      · next hisolated => rw [after_eq_nil (hm.1 hisolated)]
      · rfl
    rw [indexOf_eq_some_iff h, hshown] at hindex
    exact ⟨by rw [size_eq]; exact (List.getElem?_eq_some_iff.mp hindex).1, element_eq.trans hindex⟩
  nearest _ _ hr := hm.isNearest h hr
  no_nearest _ hr := size_eq_zero_of_nearest hr

theorem Consistent.unhidden (hm : m.Consistent) (h : m.Valid) : m.Unhidden := by
  constructor
  · intro hisolated
    by_contra hne
    obtain ⟨msgId, rest, hitems⟩ := List.exists_cons_of_ne_nil hne
    have hindex : m.indexOf (computeId m.key.peerId msgId) = some m.before.length := by
      rw [indexOf_eq_some_iff h, List.getElem?_append_right le_rfl, Nat.sub_self, after_eq, hitems]
      rfl
    have hlt := (hm.element_indexOf _ _ hindex).1
    rw [size_eq, shown_eq, if_pos hisolated, List.append_nil] at hlt
    exact lt_irrefl _ hlt
  · intro hisolated
    by_contra hne
    have hsome : m.migrated.isSome := by
      by_contra hnone
      rw [migratedSlice, Option.not_isSome_iff_eq_none.mp hnone] at hne
      exact hne rfl
    obtain ⟨msgId, hmsgId⟩ := Option.ne_none_iff_exists'.mp
      (mt (@SparseIdsSlice.nearest_eq_none_iff m.migratedSlice (0 + serverMaxMsgId)).mp hne)
    have hnearest : m.nearest 0 = some (computeId m.key.migratedPeerId msgId) := by
      rw [SparseIdsMergedSlice.nearest, bind_nearest, if_neg (by decide), hmsgId]
    obtain ⟨hmem, -⟩ := isNearest_iff.mp (hm.nearest 0 _ hnearest)
    rw [shown_eq, before_eq_nil (Or.inl hisolated), List.nil_append] at hmem
    split at hmem
    · cases hmem
    · have hfalse := h.migrated_not_from_part hsome msgId
      rw [mem_after_isFromSlice h hmem] at hfalse
      cases hfalse

theorem indices_consistent_iff (m : SparseIdsMergedSlice) (h : m.Valid) :
    m.Consistent ↔ m.Unhidden := ⟨fun hm => hm.unhidden h, fun hm => hm.consistent h⟩

/-- The messages of a channel around the third message of the chat that it was before. -/
def aroundMigrated (skippedAfter : Int) : SparseIdsMergedSlice where
  key := ⟨peerFromChannel 7, peerFromChat 5, 3 - serverMaxMsgId⟩
  part := { ids := .ofList [1] }
  migrated := some { ids := .ofList [2, 3], skippedAfter := some skippedAfter }

theorem valid_aroundMigrated (skippedAfter : Int) : (aroundMigrated skippedAfter).Valid where
  universalId := Or.inr ⟨rfl, rfl⟩
  peer := ⟨7, Or.inr (Or.inr rfl)⟩
  migrated _ := ⟨⟨7, by decide, rfl⟩, ⟨5, rfl⟩⟩

theorem indices_consistent_iff_adjacent : (aroundMigrated 0).Consistent ↔ (aroundMigrated 0).Unhidden :=
  indices_consistent_iff _ (valid_aroundMigrated 0)

/-- There are four more messages in the chat: those of the channel have no place, and an index. -/
theorem hidden_part_has_index : (aroundMigrated 4).Valid ∧ (aroundMigrated 4).size = 2 ∧
    (aroundMigrated 4).indexOf ⟨7, 1⟩ = some 2 ∧ (aroundMigrated 4).nearest 1 = some ⟨7, 1⟩ ∧
    ¬(aroundMigrated 4).Consistent := by
  refine ⟨valid_aroundMigrated 4, by decide, by decide, by decide, fun h => ?_⟩
  exact absurd (h.element_indexOf ⟨7, 1⟩ 2 (by decide)).1 (by decide)

end SparseIdsMergedSlice

end TelegramClient.Data
