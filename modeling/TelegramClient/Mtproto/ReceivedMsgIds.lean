import Mathlib
import TelegramClient.Lib.TreeMap
import TelegramClient.Mtproto.SecureRequest

/-! The ids of received messages. Only the greatest of them are kept, and an id
that was accepted once is never accepted again. -/

namespace TelegramClient.Mtproto

def kIdsBufferSize : Nat := 400

/-- The ids of the messages received, each with whether it needs an ack. -/
abbrev ReceivedMsgIds := Std.ExtTreeMap MsgId Bool

namespace ReceivedMsgIds

variable (ids : ReceivedMsgIds)

def min : MsgId := ids.minKey?.getD 0

def registerMsgId (msgId : MsgId) (needAck : Bool) : Bool × ReceivedMsgIds :=
  if msgId ∉ ids then
    if ids.size < kIdsBufferSize ∨ ids.min < msgId then (true, ids.insert msgId needAck)
    else (false, ids)
  else (false, ids)

def shrink : ReceivedMsgIds := ids.dropMin (ids.size - kIdsBufferSize)

end ReceivedMsgIds

/-- The calls made between two calls of `clear`. -/
inductive IdsCall where
  | registerMsgId (msgId : MsgId) (needAck : Bool)
  | shrink

/-- The ids after a call and those accepted so far. -/
structure IdsHistory where
  ids : ReceivedMsgIds := ∅
  accepted : List MsgId := []

def IdsHistory.call (h : IdsHistory) : IdsCall → IdsHistory
  | .registerMsgId msgId needAck =>
    match h.ids.registerMsgId msgId needAck with
    | (true, ids) => { ids, accepted := msgId :: h.accepted }
    | (false, ids) => { h with ids }
  | .shrink => { h with ids := h.ids.shrink }

def IdsHistory.calls (h : IdsHistory) (cs : List IdsCall) : IdsHistory :=
  cs.foldl IdsHistory.call h

@[simp] theorem IdsHistory.calls_nil (h : IdsHistory) : h.calls [] = h := rfl

@[simp] theorem IdsHistory.calls_cons (h : IdsHistory) (c : IdsCall) (cs : List IdsCall) :
    h.calls (c :: cs) = (h.call c).calls cs := by
  rw [calls, calls, List.foldl_cons]

theorem IdsHistory.calls_append (h : IdsHistory) (cs ds : List IdsCall) :
    h.calls (cs ++ ds) = (h.calls cs).calls ds := by
  rw [calls, calls, calls, List.foldl_append]

/-- An accepted id is kept or smaller than all that are kept, in a full buffer. -/
def IdsHistory.Remembers (h : IdsHistory) : Prop :=
  ∀ msgId ∈ h.accepted, msgId ∈ h.ids ∨
    kIdsBufferSize ≤ h.ids.size ∧ ∀ kept ∈ h.ids, msgId < kept

namespace ReceivedMsgIds

variable {ids : ReceivedMsgIds} {msgId : MsgId}

theorem min_mem (h : 0 < ids.size) : ids.min ∈ ids := by
  cases hm : ids.minKey? with
  | none =>
    rw [Std.ExtTreeMap.minKey?_eq_none_iff] at hm
    simp [hm] at h
  | some m => simpa [min, hm] using Std.ExtTreeMap.minKey?_mem hm

theorem size_shrink (ids : ReceivedMsgIds) :
    ids.shrink.size = ids.size - (ids.size - kIdsBufferSize) :=
  Std.ExtTreeMap.size_dropMin _ _

theorem shrink_dropped (hm : msgId ∈ ids) (hd : msgId ∉ ids.shrink) :
    kIdsBufferSize ≤ ids.shrink.size ∧ ∀ kept ∈ ids.shrink, msgId < kept := by
  constructor
  · rw [size_shrink]
    by_contra hlt
    have hn : ids.size - kIdsBufferSize = 0 := by omega
    rw [shrink, hn] at hd
    exact hd hm
  · intro kept hk
    exact Std.compare_eq_lt.mp (Std.ExtTreeMap.lt_of_not_mem_dropMin hm hd hk)

end ReceivedMsgIds

namespace IdsHistory

variable {h : IdsHistory}

theorem Remembers.refuses (hr : h.Remembers) {msgId : MsgId} (hm : msgId ∈ h.accepted)
    (needAck : Bool) : h.ids.registerMsgId msgId needAck = (false, h.ids) := by
  rw [ReceivedMsgIds.registerMsgId]
  rcases hr msgId hm with hk | ⟨hfull, hlt⟩
  · rw [if_neg (not_not.mpr hk)]
  · have hmin := hlt _ (ReceivedMsgIds.min_mem (Nat.lt_of_lt_of_le (by decide) hfull))
    have hcond : ¬(h.ids.size < kIdsBufferSize ∨ h.ids.min < msgId) := by
      rintro (hs | hs)
      · omega
      · exact absurd (UInt64.lt_trans hmin hs) (UInt64.lt_irrefl _)
    rw [if_neg hcond]
    split <;> rfl

theorem Remembers.register (hr : h.Remembers) (msgId : MsgId) (needAck : Bool) :
    (h.call (.registerMsgId msgId needAck)).Remembers := by
  rw [call, ReceivedMsgIds.registerMsgId]
  split
  · next ids heq =>
    split at heq
    · next hnew =>
      split at heq
      · next hcond =>
        cases heq
        intro other ho
        rcases List.mem_cons.mp ho with rfl | ho
        · exact .inl (by simp)
        rcases hr other ho with hk | ⟨hfull, hlt⟩
        · exact .inl (by simp [hk])
        · have hmin := hlt _ (ReceivedMsgIds.min_mem (Nat.lt_of_lt_of_le (by decide) hfull))
          have hgt : h.ids.min < msgId := hcond.resolve_left (by omega)
          refine .inr ⟨?_, fun kept hkept => ?_⟩
          · exact hfull.trans Std.ExtTreeMap.size_le_size_insert
          · rcases Std.ExtTreeMap.mem_insert.mp hkept with heq | hkept
            · rw [← Std.LawfulEqCmp.eq_of_compare heq]
              exact UInt64.lt_trans hmin hgt
            · exact hlt kept hkept
      · cases heq
    · cases heq
  · next ids heq =>
    split at heq
    · split at heq
      · cases heq
      · cases heq
        exact hr
    · cases heq
      exact hr

@[simp] theorem call_shrink (h : IdsHistory) :
    h.call .shrink = { h with ids := h.ids.shrink } := by rw [call]

theorem Remembers.shrink (hr : h.Remembers) : (h.call .shrink).Remembers := by
  simp only [call_shrink, Remembers]
  intro msgId hm
  by_cases hkept : msgId ∈ h.ids.shrink
  · exact .inl hkept
  refine .inr ?_
  rcases hr msgId hm with hk | ⟨hfull, hlt⟩
  · exact ReceivedMsgIds.shrink_dropped hk hkept
  · refine ⟨?_, fun kept hk => hlt kept (Std.ExtTreeMap.mem_of_mem_dropMin hk)⟩
    rw [ReceivedMsgIds.size_shrink]
    omega

theorem Remembers.call (hr : h.Remembers) : ∀ c, (h.call c).Remembers
  | .registerMsgId msgId needAck => hr.register msgId needAck
  | .shrink => hr.shrink

theorem Remembers.calls (hr : h.Remembers) (cs : List IdsCall) : (h.calls cs).Remembers := by
  induction cs generalizing h with
  | nil => exact hr
  | cons c cs ih =>
    rw [calls_cons]
    exact ih (hr.call c)

theorem accepted_mono (h : IdsHistory) (cs : List IdsCall) {msgId : MsgId}
    (hm : msgId ∈ h.accepted) : msgId ∈ (h.calls cs).accepted := by
  induction cs generalizing h with
  | nil => exact hm
  | cons c cs ih =>
    rw [calls_cons]
    refine ih (h.call c) ?_
    cases c with
    | shrink => simpa only [call_shrink] using hm
    | registerMsgId other needAck =>
      rw [call]
      split
      · exact List.mem_cons_of_mem _ hm
      · exact hm

theorem remembers_empty : ({} : IdsHistory).Remembers := fun _ hm => by cases hm

theorem call_nodup (hr : h.Remembers) (hn : h.accepted.Nodup) (c : IdsCall) :
    (h.call c).accepted.Nodup := by
  cases c with
  | shrink => simpa only [call_shrink] using hn
  | registerMsgId msgId needAck =>
    by_cases hm : msgId ∈ h.accepted
    · simpa only [call, hr.refuses hm] using hn
    · rw [call]
      split
      · exact List.nodup_cons.mpr ⟨hm, hn⟩
      · exact hn

theorem calls_nodup (hr : h.Remembers) (hn : h.accepted.Nodup) (cs : List IdsCall) :
    (h.calls cs).accepted.Nodup := by
  induction cs generalizing h with
  | nil => exact hn
  | cons c cs ih =>
    rw [calls_cons]
    exact ih (hr.call c) (call_nodup hr hn c)

end IdsHistory

/-- Whatever is received and shrunk in whatever order, no id is accepted twice,
and one that was accepted is refused from then on, whether it is still kept or
was dropped. -/
theorem accepted_once (cs : List IdsCall) :
    (IdsHistory.calls {} cs).accepted.Nodup ∧
      ∀ msgId ∈ (IdsHistory.calls {} cs).accepted, ∀ (later : List IdsCall) (needAck : Bool),
        ((IdsHistory.calls {} (cs ++ later)).ids.registerMsgId msgId needAck).1 = false := by
  refine ⟨IdsHistory.calls_nodup IdsHistory.remembers_empty .nil cs, ?_⟩
  intro msgId hm later needAck
  have hr := IdsHistory.remembers_empty.calls (cs ++ later)
  have hlater : msgId ∈ (IdsHistory.calls {} (cs ++ later)).accepted := by
    rw [IdsHistory.calls_append]
    exact IdsHistory.accepted_mono _ later hm
  rw [hr.refuses hlater]

/-- An id received twice, with another one between and a shrink. -/
theorem accepted_once_redelivered :
    ((IdsHistory.calls {} ([.registerMsgId 5 true] ++ [.registerMsgId 3 false, .shrink])
      ).ids.registerMsgId 5 true).1 = false :=
  (accepted_once [.registerMsgId 5 true]).2 5 (by decide) _ true

end TelegramClient.Mtproto
