import Mathlib
import TelegramClient.Mtproto.SecureRequest

/-! The maps of a session, shared by its parts, and the ids of messages drawn
for it. -/

namespace TelegramClient.Mtproto

/-- The maps of a session with the fields of its connection that go with them.
The ids of `timedOut` were handed over to fail with a timeout, and `drawn` message
ids were taken from the clock. -/
structure Session where
  heap : Ref → SecureRequestData := fun _ => {}
  toSend : Std.ExtTreeMap RequestId Ref := ∅
  haveSent : Std.ExtTreeMap MsgId Ref := ∅
  toResend : Std.ExtTreeMap MsgId RequestId := ∅
  wereAcked : Std.ExtTreeMap MsgId RequestId := ∅
  stateRequest : Std.ExtTreeMap MsgId Bool := ∅
  receivedResponses : Std.ExtTreeMap RequestId (List UInt32) := ∅
  timedOut : List RequestId := []
  ackRequestData : List MsgId := []
  resendRequestData : List MsgId := []
  pingMsgId : MsgId := 0
  salt : UInt64 := 0
  session : UInt64 := 0
  messagesSent : UInt32 := 0
  inited : Bool := false
  drawn : Nat := 0

namespace Session

def wasSent (s : Session) (msgId : MsgId) : RequestId :=
  if msgId = s.pingMsgId then -1
  else
    match s.haveSent[msgId]? with
    | some req => if (s.heap req).requestId ≠ 0 then (s.heap req).requestId else -1
    | none => s.toResend[msgId]?.getD (s.wereAcked[msgId]?.getD 0)

def setSession (s : Session) (session : UInt64) : Session :=
  if s.session ≠ session then { s with session, messagesSent := 0 } else s

def nextRequestSeqNumber (s : Session) (needAck : Bool) : UInt32 × Session :=
  let ack := if needAck then 1 else 0
  (s.messagesSent * 2 + ack, { s with messagesSent := s.messagesSent + ack })

def modifyRequest (s : Session) (req : Ref) (f : SecureRequestData → SecureRequestData) : Session :=
  { s with heap := Function.update s.heap req (f (s.heap req)) }

def withHeap (s : Session) (heap : Ref → SecureRequestData) : Session := { s with heap }

def msgIdInUse (s : Session) (msgId : MsgId) : Bool :=
  s.toResend.contains msgId || s.wereAcked.contains msgId || s.haveSent.contains msgId

section

-- The ids the clock gives, one after another.
variable (clock : Nat → MsgId)

def msgid (s : Session) : MsgId × Session :=
  (clock s.drawn, { s with drawn := s.drawn + 1 })

/-- Ids are drawn until one is not in use or one is not greater than the last. -/
def unusedMsgId (s : Session) (newId : MsgId) : MsgId × Session :=
  if s.msgIdInUse newId then
    if _h : clock s.drawn ≤ newId then (newId, { s with drawn := s.drawn + 1 })
    else unusedMsgId { s with drawn := s.drawn + 1 } (clock s.drawn)
  else (newId, s)
termination_by 2 ^ 64 - newId.toNat
decreasing_by
  have hlt := UInt64.lt_iff_toNat_lt.mp (UInt64.not_le.mp _h)
  have hnew := (clock s.drawn).toNat_lt
  omega

/-- After an id in use the clock gives a greater one. -/
def Increasing (s : Session) : Prop :=
  ∀ n, s.drawn ≤ n → s.msgIdInUse (clock n) → clock n < clock (n + 1)

/-- The id is not above the first of the next ids that is not in use. -/
def Reached (s : Session) (msgId : MsgId) : Prop :=
  ∃ n, s.drawn ≤ n ∧ (∀ m, s.drawn ≤ m → m < n → s.msgIdInUse (clock m)) ∧ msgId ≤ clock n

variable {clock}

@[simp] theorem msgIdInUse_with_drawn (s : Session) (n : Nat) (msgId : MsgId) :
    { s with drawn := n }.msgIdInUse msgId = s.msgIdInUse msgId := rfl

theorem not_inUse {s : Session} {msgId : MsgId} (h : s.msgIdInUse msgId = false) :
    s.toResend[msgId]? = none ∧ s.wereAcked[msgId]? = none ∧ s.haveSent[msgId]? = none := by
  simp only [msgIdInUse, Bool.or_eq_false_iff, Std.ExtTreeMap.contains_eq_isSome_getElem?,
    Option.isSome_eq_false_iff, Option.isNone_iff_eq_none] at h
  exact ⟨h.1.1, h.1.2, h.2⟩

theorem unusedMsgId_of_not_inUse (clock : Nat → MsgId) {s : Session} {newId : MsgId}
    (h : s.msgIdInUse newId = false) :
    s.unusedMsgId clock newId = (newId, s) := by
  rw [unusedMsgId, h]
  rfl

/-- The loop ends at the first id that is not in use, or before one that is not
greater. -/
theorem unusedMsgId_cases (clock : Nat → MsgId) (s : Session) {n : Nat} (hn : s.drawn = n + 1) :
    ∃ k, n ≤ k ∧ clock n ≤ clock k ∧ (∀ m, n ≤ m → m < k → s.msgIdInUse (clock m)) ∧
      (s.unusedMsgId clock (clock n) = (clock k, { s with drawn := k + 1 }) ∧
          s.msgIdInUse (clock k) = false ∨
        s.unusedMsgId clock (clock n) = (clock k, { s with drawn := k + 2 }) ∧
          s.msgIdInUse (clock k) ∧ clock (k + 1) ≤ clock k) := by
  by_cases huse : s.msgIdInUse (clock n)
  · by_cases hle : clock (n + 1) ≤ clock n
    · refine ⟨n, Nat.le_refl n, UInt64.le_refl _, fun m hm hmn => by omega, .inr ⟨?_, huse, hle⟩⟩
      rw [unusedMsgId, if_pos huse, hn, dif_pos hle]
    · have hterm := UInt64.lt_iff_toNat_lt.mp (UInt64.not_le.mp hle)
      have hnew := (clock (n + 1)).toNat_lt
      obtain ⟨k, hk, hkle, hall, hcases⟩ :=
        unusedMsgId_cases clock { s with drawn := n + 2 } (n := n + 1) rfl
      have hstep : s.unusedMsgId clock (clock n) =
          { s with drawn := n + 2 }.unusedMsgId clock (clock (n + 1)) := by
        conv_lhs => rw [unusedMsgId, if_pos huse, hn, dif_neg hle]
      refine ⟨k, by omega, UInt64.le_trans (UInt64.le_of_lt (UInt64.not_le.mp hle)) hkle,
        fun m hm hmk => ?_, hstep ▸ hcases⟩
      by_cases hmn : m = n
      · exact hmn ▸ huse
      · exact hall m (by omega) hmk
  · rw [Bool.not_eq_true] at huse
    refine ⟨n, Nat.le_refl n, UInt64.le_refl _, fun m hm hmn => by omega, .inl ⟨?_, huse⟩⟩
    rw [unusedMsgId_of_not_inUse clock huse, ← hn]
termination_by 2 ^ 64 - (clock n).toNat

/-- With a rising clock the loop ends at the first id that is not in use. -/
theorem unusedMsgId_eq {s : Session} (hinc : s.Increasing clock) {n : Nat} (hn : s.drawn ≤ n) :
    ∃ k, n ≤ k ∧ { s with drawn := n + 1 }.unusedMsgId clock (clock n) =
        (clock k, { s with drawn := k + 1 }) ∧
      s.msgIdInUse (clock k) = false ∧ ∀ m, n ≤ m → m < k → s.msgIdInUse (clock m) := by
  obtain ⟨k, hk, -, hall, ⟨heq, hfree⟩ | ⟨-, huse, hle⟩⟩ :=
    unusedMsgId_cases clock { s with drawn := n + 1 } rfl
  · exact ⟨k, hk, heq, hfree, hall⟩
  · exact absurd (hinc k (by omega) huse) (UInt64.not_lt.mpr hle)

theorem Increasing.le {s : Session} (hinc : s.Increasing clock) {n k : Nat} (hn : s.drawn ≤ n)
    (hnk : n ≤ k) (hall : ∀ m, n ≤ m → m < k → s.msgIdInUse (clock m)) : clock n ≤ clock k := by
  induction k, hnk using Nat.le_induction with
  | base => exact UInt64.le_refl _
  | succ k hk ih =>
    have hle := ih fun m hm hmk => hall m hm (by omega)
    exact UInt64.le_trans hle (UInt64.le_of_lt
      (hinc k (by omega) (hall k hk (Nat.lt_succ_self k))))

theorem reached_iff {s : Session} (hinc : s.Increasing clock) {k : Nat} (hk : s.drawn ≤ k)
    (hfree : s.msgIdInUse (clock k) = false)
    (hall : ∀ m, s.drawn ≤ m → m < k → s.msgIdInUse (clock m)) (msgId : MsgId) :
    s.Reached clock msgId ↔ msgId ≤ clock k := by
  constructor
  · rintro ⟨n, hn, huse, hle⟩
    have hnk : n ≤ k := by
      by_contra hlt
      rw [huse k hk (by omega)] at hfree
      cases hfree
    exact UInt64.le_trans hle (hinc.le hn hnk fun m hm hmk => hall m (by omega) hmk)
  · exact fun hle => ⟨k, hk, hall, hle⟩

end

end Session

end TelegramClient.Mtproto
