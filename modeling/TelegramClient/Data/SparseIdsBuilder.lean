import TelegramClient.Storage.SparseIdsServer

/-! A part of the messages of a list that is shown, which is kept up with the list
(`data/data_sparse_ids.cpp`). -/

namespace TelegramClient.Data

open OrderedSets Base Storage

structure SparseIdsSliceBuilder.AroundData where
  aroundId : Int := 0
  direction : LoadDirection := .around
  deriving DecidableEq

inductive SparseIdsSliceBuilder.RequestDirection where
  | before
  | after

structure SparseIdsSliceBuilder where
  key : Int
  ids : OrderedSet Int := .empty
  range : MsgRange := {}
  fullCount : Option Int := none
  skippedBefore : Option Int := none
  skippedAfter : Option Int := none
  limitBefore : Int
  limitAfter : Int
  /-- What was fired. -/
  insufficientAround : List SparseIdsSliceBuilder.AroundData := []

namespace SparseIdsSliceBuilder

variable (b : SparseIdsSliceBuilder)

def requestAroundData (direction : RequestDirection) : AroundData :=
  match b.ids.items.head?, b.ids.items.getLast?, direction with
  | some front, _, .before => ⟨front, .before⟩
  | some _, some back, .after => ⟨back, .after⟩
  | _, _, _ => ⟨b.key, .around⟩

def requestMessages (direction : RequestDirection) : SparseIdsSliceBuilder :=
  { b with insufficientAround := b.insufficientAround ++ [b.requestAroundData direction] }

def requestMessagesCount : SparseIdsSliceBuilder :=
  { b with insufficientAround := b.insufficientAround ++ [⟨0, .around⟩] }

/-- With whether something was requested. -/
def removeFromBegin (count : Int) : SparseIdsSliceBuilder × Bool :=
  if 0 < count then
    ({ b with
      ids := b.ids.drop count.toNat
      skippedBefore := b.skippedBefore.map (· + count) }, false)
  else if count < 0 ∧ b.skippedBefore.all (0 < ·) then (b.requestMessages .before, true)
  else (b, false)

def removeFromEnd (count : Int) : SparseIdsSliceBuilder × Bool :=
  if 0 < count then
    ({ b with
      ids := b.ids.take (b.ids.size - count.toNat)
      skippedAfter := b.skippedAfter.map (· + count) }, false)
  else if count < 0 ∧ b.skippedAfter.all (0 < ·) then (b.requestMessages .after, true)
  else (b, false)

def sliceToLimits : SparseIdsSliceBuilder :=
  if b.key = 0 then
    if b.fullCount.isNone then b.requestMessagesCount else b
  else
    let around : Int := b.ids.lowerBound b.key
    let first := b.removeFromBegin (around - b.limitBefore)
    let second := first.1.removeFromEnd (b.ids.size - around - b.limitAfter - 1)
    if second.1.fullCount.isNone && !(first.2 || second.2) then second.1.requestMessagesCount
    else second.1

def checkInsufficient : SparseIdsSliceBuilder := b.sliceToLimits

def fillSkippedAndSliceToLimits : SparseIdsSliceBuilder :=
  let skipped := fillSkipped b.fullCount b.skippedBefore b.skippedAfter b.ids.size
  sliceToLimits { b with skippedBefore := skipped.1, skippedAfter := skipped.2 }

/-- The old id is one of the ids. -/
def adjustSkippedBefore (ids : OrderedSet Int) (oldId oldSkippedBefore : Int) : Int :=
  max (oldSkippedBefore - ids.lowerBound oldId) 0

def adjustSkippedAfter (ids : OrderedSet Int) (oldId oldSkippedAfter : Int) : Int :=
  max (oldSkippedAfter - (ids.size - ids.lowerBound oldId - 1)) 0

/-- What is known of the count when no messages come. It is compared as an unsigned number. -/
def mergeCount (count : Option Int) : SparseIdsSliceBuilder :=
  match count with
  | none => b
  | some count =>
    if b.fullCount = some count then b
    else if 0 ≤ count ∧ count ≤ b.ids.size then
      { b with fullCount := some b.ids.size, skippedBefore := some 0, skippedAfter := some 0 }
    else { b with fullCount := some count }

/-- What is skipped before the ids after some are merged, where `-1` stands for no id. -/
def mergedSkippedBefore (ids : OrderedSet Int) (front : Int) (skippedBefore : Option Int) : Option Int :=
  let wasMinId := b.ids.items.head?.getD (-1)
  match skippedBefore with
  | some skipped => some (adjustSkippedBefore ids front skipped)
  | none => if 0 ≤ wasMinId then b.skippedBefore.map (adjustSkippedBefore ids wasMinId) else none

def mergedSkippedAfter (ids : OrderedSet Int) (back : Int) (skippedAfter : Option Int) : Option Int :=
  let wasMaxId := b.ids.items.getLast?.getD (-1)
  match skippedAfter with
  | some skipped => some (adjustSkippedAfter ids back skipped)
  | none => if 0 ≤ wasMaxId then b.skippedAfter.map (adjustSkippedAfter ids wasMaxId) else none

def mergeMessages (count : Option Int) (messageIds : OrderedSet Int) (front back : Int)
    (skippedBefore skippedAfter : Option Int) : SparseIdsSliceBuilder :=
  let ids := b.ids.merge messageIds.items
  { b with
    fullCount := count.or b.fullCount
    ids
    skippedBefore := b.mergedSkippedBefore ids front skippedBefore
    skippedAfter := b.mergedSkippedAfter ids back skippedAfter }

def mergeSliceData (count : Option Int) (messageIds : OrderedSet Int)
    (skippedBefore skippedAfter : Option Int) : SparseIdsSliceBuilder :=
  match messageIds.items.head?, messageIds.items.getLast? with
  | some front, some back =>
    (b.mergeMessages count messageIds front back skippedBefore skippedAfter).fillSkippedAndSliceToLimits
  | _, _ => (b.mergeCount count).fillSkippedAndSliceToLimits

def applyInitial (result : SparseIdsListResult) : SparseIdsSliceBuilder :=
  b.mergeSliceData result.count result.messageIds result.skippedBefore result.skippedAfter

def intersects (range1 range2 : MsgRange) : Bool :=
  range1.from ≤ range2.till && range2.from ≤ range1.till

/-- With whether there is something new to show. -/
def applyUpdate (update : SparseIdsSliceUpdate) : SparseIdsSliceBuilder × Bool :=
  let needMergeMessages := update.messages.isSome && intersects update.range
    ⟨b.ids.items.head?.getD b.key, b.ids.items.getLast?.getD b.key⟩
  if !needMergeMessages && update.count.isNone then (b, false)
  else
    let skippedBefore := if update.range.from = 0 then some 0 else none
    let skippedAfter := if update.range.till = serverMaxMsgId then some 0 else none
    (b.mergeSliceData update.count (if needMergeMessages then update.messages.getD .empty else .empty)
      skippedBefore skippedAfter, true)

def countRemoved : SparseIdsSliceBuilder :=
  if b.fullCount.any (0 < ·) then { b with fullCount := b.fullCount.map (· - 1) } else b

def removeOne (messageId : Int) : SparseIdsSliceBuilder × Bool :=
  let counted := b.fullCount.any (0 < ·)
  let b := b.countRemoved
  let before := b.ids.items.head?.any (messageId < ·) && b.skippedBefore.any (0 < ·)
  let after := b.ids.items.getLast?.any (· < messageId) && b.skippedAfter.any (0 < ·)
  if b.ids.items.contains messageId then
    (checkInsufficient { b with ids := b.ids.remove messageId }, true)
  else if before then
    (checkInsufficient { b with skippedBefore := b.skippedBefore.map (· - 1) }, true)
  else if after then
    (checkInsufficient { b with skippedAfter := b.skippedAfter.map (· - 1) }, true)
  else if counted then (b.checkInsufficient, true)
  else (b, false)

def removeAll : SparseIdsSliceBuilder :=
  { b with
    ids := .empty
    range := ⟨0, serverMaxMsgId⟩
    fullCount := some 0
    skippedBefore := some 0
    skippedAfter := some 0 }

def invalidateBottom : SparseIdsSliceBuilder :=
  checkInsufficient { b with
    fullCount := none
    skippedAfter := none
    range :=
      if b.range.till = serverMaxMsgId
        then ⟨b.range.from, b.ids.items.getLast?.getD b.range.from⟩ else b.range }

def snapshot : SparseIdsSlice where
  ids := b.ids
  fullCount := b.fullCount
  skippedBefore := b.skippedBefore
  skippedAfter := b.skippedAfter

/-- Where the viewer takes the first part from the list, and looks whether it has enough. -/
def start (l : SparseIdsList) (key limitBefore limitAfter : Int) : SparseIdsSliceBuilder :=
  let b : SparseIdsSliceBuilder := { key, limitBefore, limitAfter }
  match l.query ⟨key, limitBefore, limitAfter⟩ with
  | some result => (b.applyInitial result).checkInsufficient
  | none => b.checkInsufficient

/-- What the viewer does when the list changes. -/
def follow (b : SparseIdsSliceBuilder) (l : SparseIdsList) (op : SparseIdsList.Op) : SparseIdsSliceBuilder :=
  match op, op.update l with
  | .removeOne messageId, _ => (b.removeOne messageId).1
  | .removeAll, _ => b.removeAll
  | .invalidateBottom, _ => b.invalidateBottom
  | _, some update => (b.applyUpdate update).1
  | _, none => b

/-- The list of the client, the messages of the server, and a viewer of the list, in a run. -/
inductive Viewed : SparseIdsList → OrderedSet Int → SparseIdsSliceBuilder → Prop
  | start {l : SparseIdsList} {t : OrderedSet Int} {key limitBefore limitAfter : Int}
      (h : l.Reached t) (hbefore : 0 ≤ limitBefore) (hafter : 0 ≤ limitAfter) :
      Viewed l t (start l key limitBefore limitAfter)
  | step {l : SparseIdsList} {t t' : OrderedSet Int} {b : SparseIdsSliceBuilder} {op : SparseIdsList.Op}
      (h : Viewed l t b) (htold : l.Told t op t') : Viewed (l.step op) t' (b.follow l op)

variable {b} {l : SparseIdsList} {t : OrderedSet Int}

/-! ### The limits -/

/-- No more ids than the limits allow, around a key. -/
def Within (b : SparseIdsSliceBuilder) : Prop :=
  b.key ≠ 0 → ((b.ids.items.countP (· < b.key) : Nat) : Int) ≤ b.limitBefore ∧
    ((b.ids.items.countP (b.key ≤ ·) : Nat) : Int) ≤ b.limitAfter + 1

/-- Some of the first ids and some of the last may go, and then they are skipped. -/
structure Sliced (b next : SparseIdsSliceBuilder) (first last : Nat) : Prop where
  le : first + last ≤ b.ids.size
  ids : next.ids.items = (b.ids.items.drop first).take (b.ids.size - first - last)
  skippedBefore : next.skippedBefore = b.skippedBefore.map (· + (first : Int))
  skippedAfter : next.skippedAfter = b.skippedAfter.map (· + (last : Int))
  fullCount : next.fullCount = b.fullCount
  key : next.key = b.key
  limitBefore : next.limitBefore = b.limitBefore
  limitAfter : next.limitAfter = b.limitAfter

theorem map_add_zero (o : Option Int) : o.map (· + ((0 : Nat) : Int)) = o := by
  cases o <;> simp

theorem removeFromBegin_sliced {count : Int} (hcount : count ≤ b.ids.size) :
    Sliced b (b.removeFromBegin count).1 count.toNat 0 := by
  unfold removeFromBegin
  split
  · next hpos =>
    have hle : count.toNat ≤ b.ids.items.length := Int.toNat_le.mpr hcount
    refine ⟨by omega, ?_, ?_, (map_add_zero _).symm, rfl, rfl, rfl, rfl⟩
    · show b.ids.items.drop count.toNat = (b.ids.items.drop count.toNat).take
        (b.ids.items.length - count.toNat - 0)
      rw [Nat.sub_zero, List.take_of_length_le (le_of_eq List.length_drop)]
    · rw [Int.toNat_of_nonneg hpos.le]
  · next hpos =>
    have hzero : count.toNat = 0 := Int.toNat_eq_zero.mpr (not_lt.mp hpos)
    have hids : b.ids.items = (b.ids.items.drop 0).take (b.ids.size - 0 - 0) :=
      (List.take_length (l := b.ids.items)).symm
    rw [hzero]
    split
    · exact ⟨Nat.zero_le _, hids, (map_add_zero _).symm, (map_add_zero _).symm, rfl, rfl, rfl, rfl⟩
    · exact ⟨Nat.zero_le _, hids, (map_add_zero _).symm, (map_add_zero _).symm, rfl, rfl, rfl, rfl⟩

theorem removeFromEnd_sliced {count : Int} (hcount : count ≤ b.ids.size) :
    Sliced b (b.removeFromEnd count).1 0 count.toNat := by
  unfold removeFromEnd
  split
  · next hpos =>
    have hle : count.toNat ≤ b.ids.size := Int.toNat_le.mpr hcount
    refine ⟨by omega, rfl, (map_add_zero _).symm, ?_, rfl, rfl, rfl, rfl⟩
    rw [Int.toNat_of_nonneg hpos.le]
  · next hpos =>
    have hzero : count.toNat = 0 := Int.toNat_eq_zero.mpr (not_lt.mp hpos)
    have hids : b.ids.items = (b.ids.items.drop 0).take (b.ids.size - 0 - 0) :=
      (List.take_length (l := b.ids.items)).symm
    rw [hzero]
    split
    · exact ⟨Nat.zero_le _, hids, (map_add_zero _).symm, (map_add_zero _).symm, rfl, rfl, rfl, rfl⟩
    · exact ⟨Nat.zero_le _, hids, (map_add_zero _).symm, (map_add_zero _).symm, rfl, rfl, rfl, rfl⟩

theorem Sliced.trans {c d : SparseIdsSliceBuilder} {first last first' last' : Nat}
    (h : Sliced b c first last) (h' : Sliced c d first' last') :
    Sliced b d (first + first') (last + last') := by
  have hsize : c.ids.size = b.ids.size - first - last := by
    have hle := h.le
    show c.ids.items.length = _
    rw [h.ids, List.length_take, List.length_drop]
    exact Nat.min_eq_left (Nat.sub_le _ _)
  have hle := h.le
  have hle' := h'.le
  refine ⟨by omega, ?_, ?_, ?_, h'.fullCount.trans h.fullCount, h'.key.trans h.key,
    h'.limitBefore.trans h.limitBefore, h'.limitAfter.trans h.limitAfter⟩
  · rw [h'.ids, hsize, h.ids, List.drop_take, List.drop_drop, List.take_take]
    congr 1
    omega
  · rw [h'.skippedBefore, h.skippedBefore, Option.map_map]
    congr 1
    funext k
    simp [Int.add_assoc]
  · rw [h'.skippedAfter, h.skippedAfter, Option.map_map]
    congr 1
    funext k
    simp [Int.add_assoc]

theorem Sliced.refl : Sliced b b 0 0 :=
  ⟨Nat.zero_le _, (List.take_length (l := b.ids.items)).symm, (map_add_zero _).symm,
    (map_add_zero _).symm, rfl, rfl, rfl, rfl⟩

theorem Sliced.requestMessagesCount {c : SparseIdsSliceBuilder} {first last : Nat}
    (h : Sliced b c first last) : Sliced b c.requestMessagesCount first last :=
  ⟨h.le, h.ids, h.skippedBefore, h.skippedAfter, h.fullCount, h.key, h.limitBefore, h.limitAfter⟩

/-- What is left around the key is not more than the limits. -/
theorem Sliced.within {c : SparseIdsSliceBuilder} {first last : Nat} (h : Sliced b c first last)
    (hfirst : first = ((b.ids.lowerBound b.key : Int) - b.limitBefore).toNat)
    (hlast : last = ((b.ids.size : Int) - b.ids.lowerBound b.key - b.limitAfter - 1).toNat)
    (hbefore : 0 ≤ b.limitBefore) (hafter : 0 ≤ b.limitAfter) : c.Within := by
  intro _
  rw [h.ids, h.key, h.limitBefore, h.limitAfter]
  have hle : b.ids.lowerBound b.key ≤ b.ids.items.length := b.ids.lowerBound_le
  have hsize : b.ids.size = b.ids.items.length := rfl
  have hless : ∀ a ∈ b.ids.items.take (b.ids.lowerBound b.key), a < b.key :=
    fun a ha => OrderedSet.lt_of_mem_take ha
  have hnotLess : ∀ a ∈ b.ids.items.drop (b.ids.lowerBound b.key), b.key ≤ a :=
    fun a ha => OrderedSet.le_of_mem_drop ha
  generalize b.ids.lowerBound b.key = around at *
  rw [hsize] at hlast ⊢
  have hitems : (b.ids.items.drop first).take (b.ids.items.length - first - last) =
      (b.ids.items.take around).drop first ++
        (b.ids.items.drop around).take (b.ids.items.length - around - last) := by
    have hlength : ((b.ids.items.take around).drop first).length = around - first := by
      rw [List.length_drop, List.length_take_of_le hle]
    conv_lhs => rw [← List.take_append_drop around b.ids.items]
    rw [List.drop_append_of_le_length (by rw [List.length_take_of_le hle]; omega), List.take_append,
      hlength, List.take_of_length_le (by rw [hlength]; simp; omega), List.take_append_drop]
    congr 2
    omega
  have hcountBefore : (b.ids.items.take around).countP (fun a => decide (b.key ≤ a)) = 0 :=
    List.countP_eq_zero.mpr (by simpa using hless)
  have hcountAfter : (b.ids.items.drop around).countP (fun a => decide (a < b.key)) = 0 :=
    List.countP_eq_zero.mpr (by simpa using hnotLess)
  have hdrop := ((b.ids.items.take around).drop_sublist first).countP_le (p := fun a => decide (b.key ≤ a))
  have htake := ((b.ids.items.drop around).take_sublist
    (b.ids.items.length - around - last)).countP_le (p := fun a => decide (a < b.key))
  have hfew := List.countP_le_length (p := fun a => decide (a < b.key))
    (l := (b.ids.items.take around).drop first)
  have hfew' := List.countP_le_length (p := fun a => decide (b.key ≤ a))
    (l := (b.ids.items.drop around).take (b.ids.items.length - around - last))
  rw [List.length_drop, List.length_take_of_le hle] at hfew
  rw [List.length_take, List.length_drop] at hfew'
  rw [hitems, List.countP_append, List.countP_append]
  omega

/-- What is left of the ids is within the limits. -/
theorem exists_sliceToLimits (b : SparseIdsSliceBuilder) (hbefore : 0 ≤ b.limitBefore)
    (hafter : 0 ≤ b.limitAfter) :
    ∃ first last, Sliced b b.sliceToLimits first last ∧ b.sliceToLimits.Within := by
  unfold sliceToLimits
  by_cases hkey : b.key = 0
  · rw [if_pos hkey]
    split
    · exact ⟨0, 0, Sliced.refl.requestMessagesCount, fun hne => absurd hkey hne⟩
    · exact ⟨0, 0, .refl, fun hne => absurd hkey hne⟩
  rw [if_neg hkey]
  have hle : b.ids.lowerBound b.key ≤ b.ids.size := b.ids.lowerBound_le
  have hfirst : Sliced b (b.removeFromBegin (b.ids.lowerBound b.key - b.limitBefore)).1
      ((b.ids.lowerBound b.key : Int) - b.limitBefore).toNat 0 := removeFromBegin_sliced (by omega)
  have hsize : (b.removeFromBegin (b.ids.lowerBound b.key - b.limitBefore)).1.ids.size =
      b.ids.size - ((b.ids.lowerBound b.key : Int) - b.limitBefore).toNat := by
    show (b.removeFromBegin (b.ids.lowerBound b.key - b.limitBefore)).1.ids.items.length = _
    rw [hfirst.ids, List.length_take, List.length_drop]
    exact Nat.min_eq_left (Nat.sub_le _ _)
  have hlast := hfirst.trans (@removeFromEnd_sliced _
    (b.ids.size - b.ids.lowerBound b.key - b.limitAfter - 1) (by omega))
  rw [Nat.add_zero, Nat.zero_add] at hlast
  have hwithin := hlast.within rfl rfl hbefore hafter
  dsimp only
  split
  · exact ⟨_, _, hlast.requestMessagesCount, hwithin⟩
  · exact ⟨_, _, hlast, hwithin⟩

/-! ### What is shown -/

open SparseIdsList (Exact Faithful Slice)

/-- The ids stand together among the messages of the server. What is skipped before them is right
when it is known, and no more is skipped after them than there is. -/
structure Placed (t : OrderedSet Int) (b : SparseIdsSliceBuilder) (before after : List Int) : Prop where
  items : t.items = before ++ b.ids.items ++ after
  skippedBefore : Exact b.skippedBefore before.length
  skippedAfter : ∀ k, b.skippedAfter = some k → 0 ≤ k ∧ k ≤ after.length

/-- The ids are of one slice. If only what is skipped after them is known, then that is the last. -/
structure Inside (l : SparseIdsList) (b : SparseIdsSliceBuilder) (s : Slice) : Prop where
  mem : s ∈ l.slices
  has : ∀ id ∈ b.ids, s.range.has id
  till : b.skippedBefore = none → b.skippedAfter ≠ none → s.range.till = serverMaxMsgId

def Shown (l : SparseIdsList) (t : OrderedSet Int) (b : SparseIdsSliceBuilder) : Prop :=
  b.ids.items ≠ [] → ∃ before after s, Placed t b before after ∧ Inside l b s ∧
    (b.skippedBefore = none → Exact b.skippedAfter after.length)

theorem Shown.congr {c : SparseIdsSliceBuilder} (h : Shown l t b) (hids : c.ids = b.ids)
    (hbefore : c.skippedBefore = b.skippedBefore) (hafter : c.skippedAfter = b.skippedAfter) :
    Shown l t c := by
  intro hne
  rw [hids] at hne
  obtain ⟨before, after, s, ⟨hitems, hskippedBefore, hskippedAfter⟩, ⟨hmem, hhas, htill⟩, hexact⟩ := h hne
  rw [← hids] at hitems hhas
  rw [← hbefore] at hskippedBefore htill hexact
  rw [← hafter] at hskippedAfter htill hexact
  exact ⟨before, after, s, ⟨hitems, hskippedBefore, hskippedAfter⟩, ⟨hmem, hhas, htill⟩, hexact⟩

structure View (l : SparseIdsList) (t : OrderedSet Int) (b : SparseIdsSliceBuilder) : Prop where
  limitBefore : 0 ≤ b.limitBefore
  limitAfter : 0 ≤ b.limitAfter
  within : b.Within
  count : b.fullCount = none ∨ b.fullCount = l.count
  shown : Shown l t b

theorem Sliced.items {c : SparseIdsSliceBuilder} {first last : Nat} (h : Sliced b c first last) :
    b.ids.items = b.ids.items.take first ++ c.ids.items ++ b.ids.items.drop (b.ids.size - last) := by
  have hle := h.le
  have hsize : b.ids.size = b.ids.items.length := rfl
  rw [h.ids]
  have hdrop : b.ids.items.drop (b.ids.size - last) =
      (b.ids.items.drop first).drop (b.ids.size - first - last) := by
    rw [List.drop_drop]
    congr 1
    omega
  rw [hdrop, List.append_assoc, List.take_append_drop, List.take_append_drop]

theorem Placed.sliced {c : SparseIdsSliceBuilder} {first last : Nat} {before after : List Int}
    (h : Placed t b before after) (hsliced : Sliced b c first last) :
    Placed t c (before ++ b.ids.items.take first) (b.ids.items.drop (b.ids.size - last) ++ after) := by
  have hle := hsliced.le
  have hsize : b.ids.size = b.ids.items.length := rfl
  refine ⟨?_, fun k hk => ?_, fun k hk => ?_⟩
  · rw [h.items]
    conv_lhs => rw [hsliced.items]
    simp only [List.append_assoc]
  · rw [hsliced.skippedBefore] at hk
    obtain ⟨k', hk', rfl⟩ := Option.map_eq_some_iff.mp hk
    rw [h.skippedBefore k' hk', List.length_append, List.length_take_of_le (by omega), Nat.cast_add]
  · rw [hsliced.skippedAfter] at hk
    obtain ⟨k', hk', rfl⟩ := Option.map_eq_some_iff.mp hk
    have hold := h.skippedAfter k' hk'
    rw [List.length_append, List.length_drop]
    omega

theorem Shown.sliced {c : SparseIdsSliceBuilder} {first last : Nat} (h : Shown l t b)
    (hsliced : Sliced b c first last) : Shown l t c := by
  intro hne
  have hle := hsliced.le
  have hsize : b.ids.size = b.ids.items.length := rfl
  have hids : b.ids.items ≠ [] := by
    intro hnil
    rw [hsliced.ids, hnil, List.drop_nil, List.take_nil] at hne
    exact hne rfl
  obtain ⟨before, after, s, hplaced, hinside, hexact⟩ := h hids
  refine ⟨_, _, s, hplaced.sliced hsliced, ⟨hinside.mem, fun id hid => hinside.has id ?_, ?_⟩, ?_⟩
  · rw [OrderedSet.mem_def, hsliced.ids] at hid
    exact List.mem_of_mem_drop (List.mem_of_mem_take hid)
  · rw [hsliced.skippedBefore, hsliced.skippedAfter, Option.map_eq_none_iff, Ne, Option.map_eq_none_iff]
    exact hinside.till
  · rw [hsliced.skippedBefore, hsliced.skippedAfter, Option.map_eq_none_iff]
    intro hnone k hk
    obtain ⟨k', hk', rfl⟩ := Option.map_eq_some_iff.mp hk
    rw [hexact hnone k' hk', List.length_append, List.length_drop]
    omega

theorem Shown.sliceToLimits (h : Shown l t b) (hbefore : 0 ≤ b.limitBefore) (hafter : 0 ≤ b.limitAfter)
    (hcount : b.fullCount = none ∨ b.fullCount = l.count) : View l t b.sliceToLimits := by
  obtain ⟨first, last, hsliced, hwithin⟩ := b.exists_sliceToLimits hbefore hafter
  exact ⟨hsliced.limitBefore ▸ hbefore, hsliced.limitAfter ▸ hafter, hwithin, hsliced.fullCount ▸ hcount,
    h.sliced hsliced⟩

/-- One of the two numbers and the count give the other. -/
theorem fillSkipped_shown {count skippedBefore skippedAfter : Option Int}
    {total before size after : Nat} (htotal : total = before + size + after) (hcount : Exact count total)
    (hbefore : Exact skippedBefore before)
    (hafter : ∀ k, skippedAfter = some k → 0 ≤ k ∧ k ≤ after)
    (hexact : skippedBefore = none → Exact skippedAfter after) :
    Exact (fillSkipped count skippedBefore skippedAfter size).1 before ∧
      (∀ k, (fillSkipped count skippedBefore skippedAfter size).2 = some k → 0 ≤ k ∧ k ≤ after) ∧
      ((fillSkipped count skippedBefore skippedAfter size).1 = none →
        Exact (fillSkipped count skippedBefore skippedAfter size).2 after ∧ skippedBefore = none ∧
          (fillSkipped count skippedBefore skippedAfter size).2 = skippedAfter) := by
  cases count with
  | none => exact ⟨hbefore, hafter, fun hnone => ⟨hexact hnone, hnone, rfl⟩⟩
  | some c =>
    have hc := hcount c rfl
    cases skippedBefore with
    | none =>
      cases skippedAfter with
      | none => exact ⟨hbefore, hafter, fun hnone => ⟨hexact hnone, rfl, rfl⟩⟩
      | some a =>
        have ha := hexact rfl a rfl
        refine ⟨fun k hk => ?_, hafter, fun hnone => ?_⟩
        · obtain rfl : c - a - size = k := Option.some.inj hk
          omega
        · cases hnone
    | some before' =>
      have hb := hbefore before' rfl
      cases skippedAfter with
      | none =>
        refine ⟨hbefore, fun k hk => ?_, fun hnone => ?_⟩
        · obtain rfl : c - before' - size = k := Option.some.inj hk
          omega
        · cases hnone
      | some a => exact ⟨hbefore, hafter, fun hnone => by cases hnone⟩

theorem Shown.fill (h : Shown l t b) (hf : l.Faithful t)
    (hcount : b.fullCount = none ∨ b.fullCount = l.count) :
    Shown l t { b with
      skippedBefore := (fillSkipped b.fullCount b.skippedBefore b.skippedAfter b.ids.size).1
      skippedAfter := (fillSkipped b.fullCount b.skippedBefore b.skippedAfter b.ids.size).2 } := by
  intro hids
  obtain ⟨before, after, s, hplaced, hinside, hexact⟩ := h hids
  have htotal : t.size = before.length + b.ids.size + after.length := by
    show t.items.length = _
    rw [hplaced.items, List.length_append, List.length_append]
    rfl
  have hfull : Exact b.fullCount t.size := by
    intro c hc
    rcases hcount with hnone | heq
    · rw [hnone] at hc
      cases hc
    · exact hf.count c (heq ▸ hc)
  obtain ⟨hbefore, hafter, hnone⟩ :=
    fillSkipped_shown htotal hfull hplaced.skippedBefore hplaced.skippedAfter hexact
  refine ⟨before, after, s, ⟨hplaced.items, hbefore, hafter⟩, ⟨hinside.mem, hinside.has, ?_⟩,
    fun h' => (hnone h').1⟩
  intro hnone' hsome
  obtain ⟨-, hwas, hsame⟩ := hnone hnone'
  exact hinside.till hwas fun h' => hsome (hsame.trans h')

theorem Shown.fillSkippedAndSliceToLimits (h : Shown l t b) (hf : l.Faithful t)
    (hbefore : 0 ≤ b.limitBefore) (hafter : 0 ≤ b.limitAfter)
    (hcount : b.fullCount = none ∨ b.fullCount = l.count) : View l t b.fillSkippedAndSliceToLimits :=
  (h.fill hf hcount).sliceToLimits hbefore hafter hcount

/-- The count alone says that the ids are all when it is not greater than their number. -/
theorem Shown.mergeCount (h : Shown l t b) (hf : l.Faithful t) (hcount : l.count = none → b.fullCount = none) :
    Shown l t (b.mergeCount l.count) ∧
      ((b.mergeCount l.count).fullCount = none ∨ (b.mergeCount l.count).fullCount = l.count) := by
  unfold SparseIdsSliceBuilder.mergeCount
  cases hknown : l.count with
  | none => exact ⟨h, .inl (hcount hknown)⟩
  | some c =>
    have hc := hf.count c hknown
    dsimp only
    by_cases hsame : b.fullCount = some c
    · rw [if_pos hsame]
      exact ⟨h, .inr hsame⟩
    rw [if_neg hsame]
    by_cases hall : 0 ≤ c ∧ c ≤ b.ids.size
    · rw [if_pos hall]
      by_cases hids : b.ids.items = []
      · have hsize : b.ids.size = 0 := List.length_eq_zero_iff.mpr hids
        refine ⟨fun hne => absurd hids hne, .inr ?_⟩
        rw [hsize] at hall ⊢
        exact congrArg some (le_antisymm hall.1 hall.2)
      obtain ⟨before, after, s, hplaced, hinside, -⟩ := h hids
      have htotal : t.size = before.length + b.ids.size + after.length := by
        show t.items.length = _
        rw [hplaced.items, List.length_append, List.length_append]
        rfl
      have hbefore : before.length = 0 := by omega
      have hafter : after.length = 0 := by omega
      refine ⟨fun _ => ⟨before, after, s, ⟨hplaced.items, ?_, ?_⟩, ⟨hinside.mem, hinside.has, ?_⟩, ?_⟩,
        .inr (congrArg some ?_)⟩
      · intro k hk
        rw [← Option.some.inj hk, hbefore]
        rfl
      · intro k hk
        rw [← Option.some.inj hk, hafter]
        exact ⟨le_rfl, le_rfl⟩
      · intro hnone
        cases hnone
      · intro hnone
        cases hnone
      · omega
    · rw [if_neg hall]
      exact ⟨h.congr rfl rfl rfl, .inr rfl⟩

end SparseIdsSliceBuilder

end TelegramClient.Data
