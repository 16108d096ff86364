import TelegramClient.Lib.OrderedSets
import TelegramClient.Data.Peers

/-! Parts of the messages of a peer, and the two parts of a channel and of the chat that it was
before, as one (`data/data_sparse_ids.cpp`). -/

namespace TelegramClient.Data

open OrderedSets

abbrev ChannelId := Int32

/-- The ids of messages are integers. -/
def serverMaxMsgId : Int := 0x3FFFFFFF

def isServerMsgId (id : Int) : Bool := 0 < id && id < serverMaxMsgId

theorem isServerMsgId_iff {id : Int} : isServerMsgId id ↔ 0 < id ∧ id < 0x3FFFFFFF := by
  rw [isServerMsgId, Bool.and_eq_true, decide_eq_true_eq, decide_eq_true_eq, serverMaxMsgId]

@[ext]
structure FullMsgId where
  channel : ChannelId := 0
  msg : Int := 0
  deriving DecidableEq

structure MsgRange where
  «from» : Int := 0
  till : Int := 0
  deriving DecidableEq

structure SparseIdsSlice where
  ids : OrderedSet Int := .empty
  fullCount : Option Int := none
  skippedBefore : Option Int := none
  skippedAfter : Option Int := none

namespace SparseIdsSlice

def indexOf (s : SparseIdsSlice) (msgId : Int) : Option Nat := s.ids.indexOf msgId

def size (s : SparseIdsSlice) : Nat := s.ids.size

/-- The element at an index, which is less than the size. -/
def element (s : SparseIdsSlice) (index : Nat) : Option Int := s.ids.items[index]?

def nearest (s : SparseIdsSlice) (msgId : Int) : Option Int :=
  (s.ids.items.find? (msgId ≤ ·)).or s.ids.items.getLast?

end SparseIdsSlice

/-- The messages of the peer have their ids, those of the migrated peer have them less
`serverMaxMsgId`. -/
structure SparseIdsMergedSlice.Key where
  peerId : PeerId := 0
  migratedPeerId : PeerId := 0
  universalId : Int := 0
  deriving DecidableEq

structure SparseIdsMergedSlice where
  key : SparseIdsMergedSlice.Key
  part : SparseIdsSlice := {}
  migrated : Option SparseIdsSlice := none

namespace SparseIdsMergedSlice

def isFromSlice (peerId : PeerId) (fullId : FullMsgId) : Bool :=
  if peerIsChannel peerId then peerId == peerFromChannel fullId.channel else fullId.channel == 0

def computeId (peerId : PeerId) (msgId : Int) : FullMsgId :=
  ⟨if peerIsChannel peerId then peerToBareInt peerId else 0, msgId⟩

def add (a b : Option Int) : Option Int :=
  match a, b with
  | some a, some b => some (a + b)
  | _, _ => none

/-- `*_migrated`, which is there wherever it is read. -/
def migratedSlice (m : SparseIdsMergedSlice) : SparseIdsSlice := m.migrated.getD {}

def isFromPart (m : SparseIdsMergedSlice) (fullId : FullMsgId) : Bool :=
  isFromSlice m.key.peerId fullId

def isFromMigrated (m : SparseIdsMergedSlice) (fullId : FullMsgId) : Bool :=
  m.migrated.isSome && isFromSlice m.key.migratedPeerId fullId

def isolatedInPart (m : SparseIdsMergedSlice) : Bool :=
  isServerMsgId m.key.universalId && (!m.migrated.isSome || m.part.skippedBefore != some 0)

def isolatedInMigrated (m : SparseIdsMergedSlice) : Bool :=
  isServerMsgId (serverMaxMsgId + m.key.universalId) && m.migratedSlice.skippedAfter != some 0

def migratedSize (m : SparseIdsMergedSlice) : Nat :=
  if m.isolatedInPart then 0 else m.migratedSlice.size

def fullCount (m : SparseIdsMergedSlice) : Option Int :=
  add m.part.fullCount (match m.migrated with | some migrated => migrated.fullCount | none => some 0)

def skippedBefore (m : SparseIdsMergedSlice) : Option Int :=
  add (if m.isolatedInMigrated then some 0 else m.part.skippedBefore)
    (match m.migrated with
    | some migrated => if m.isolatedInPart then migrated.fullCount else migrated.skippedBefore
    | none => some 0)

def skippedAfter (m : SparseIdsMergedSlice) : Option Int :=
  add (if m.isolatedInMigrated then m.part.fullCount else m.part.skippedAfter)
    (if m.isolatedInPart then some 0 else m.migratedSlice.skippedAfter)

def indexOf (m : SparseIdsMergedSlice) (fullId : FullMsgId) : Option Nat :=
  if m.isFromPart fullId then (m.part.indexOf fullId.msg).map (· + m.migratedSize)
  else if m.isolatedInPart then none
  else if m.isFromMigrated fullId then m.migratedSlice.indexOf fullId.msg
  else none

def size (m : SparseIdsMergedSlice) : Nat :=
  (if m.isolatedInPart then 0 else m.migratedSize) + (if m.isolatedInMigrated then 0 else m.part.size)

/-- The element at an index, which is less than the size. -/
def element (m : SparseIdsMergedSlice) (index : Nat) : Option FullMsgId :=
  if m.size ≤ index then none
  else if index < m.migratedSize then
    (m.migratedSlice.element index).map (computeId m.key.migratedPeerId)
  else (m.part.element (index - m.migratedSize)).map (computeId m.key.peerId)

def nearest (m : SparseIdsMergedSlice) (id : Int) : Option FullMsgId :=
  if isServerMsgId id then
    match m.part.nearest id with
    | some msgId => some (computeId m.key.peerId msgId)
    | none =>
      if m.isolatedInPart then none
      else (m.migratedSlice.nearest (serverMaxMsgId - 1)).map (computeId m.key.migratedPeerId)
  else
    match m.migrated.bind (·.nearest (id + serverMaxMsgId)) with
    | some msgId => some (computeId m.key.migratedPeerId msgId)
    | none =>
      if m.isolatedInMigrated then none
      else (m.part.nearest 0).map (computeId m.key.peerId)

end SparseIdsMergedSlice

/-! ### The nearest element of a part -/

/-- How far an element is from an id: those that are not before it come first. -/
def gap (id msgId : Int) : Nat ×ₗ Int :=
  if id ≤ msgId then toLex (0, msgId - id) else toLex (1, id - msgId)

namespace SparseIdsSlice

variable {s : SparseIdsSlice} {id msgId : Int}

theorem nearest_eq_none_iff : s.nearest id = none ↔ s.ids.items = [] := by
  rw [nearest, Option.or_eq_none_iff, List.getLast?_eq_none_iff, and_iff_right_iff_imp]
  intro h
  rw [h]
  rfl

theorem mem_of_nearest (h : s.nearest id = some msgId) : msgId ∈ s.ids := by
  rcases Option.or_eq_some_iff.mp h with h | ⟨-, h⟩
  · exact List.mem_of_find?_eq_some h
  · exact List.mem_of_getLast? h

theorem gap_nearest (h : s.nearest id = some msgId) {other : Int} (hother : other ∈ s.ids) :
    gap id msgId ≤ gap id other := by
  rw [gap, gap]
  rcases Option.or_eq_some_iff.mp h with h | ⟨hnone, hlast⟩
  · have hle : id ≤ msgId := by simpa using List.find?_some h
    rw [if_pos hle]
    split
    · next hother' =>
      have hfirst : msgId ≤ other := OrderedSet.le_of_find? h hother hother'
      rw [Prod.Lex.toLex_le_toLex]
      exact Or.inr ⟨rfl, Int.sub_le_sub_right hfirst id⟩
    · rw [Prod.Lex.toLex_le_toLex]
      exact Or.inl Nat.zero_lt_one
  · -- all of them are before the id
    have hbefore : ∀ m ∈ s.ids, ¬id ≤ m := by
      intro m hm
      simpa using List.find?_eq_none.mp hnone m hm
    have hle : other ≤ msgId := OrderedSet.le_getLast? hlast hother
    rw [if_neg (hbefore msgId (List.mem_of_getLast? hlast)), if_neg (hbefore other hother),
      Prod.Lex.toLex_le_toLex]
    exact Or.inr ⟨rfl, Int.sub_le_sub_left hle id⟩

end SparseIdsSlice

end TelegramClient.Data
