import Mathlib
import TelegramClient.Mtproto.TryToSend

/-! The ids of the messages of a container: one for each message, all below the id
of the container. -/

namespace TelegramClient.Mtproto.Session

variable {clock : Nat → MsgId} {s s' : Session} {req : Ref}

/-- The ids with these numbers are drawn in rising order. -/
def Rising (clock : Nat → MsgId) (start stop : Nat) : Prop :=
  ∀ m n, start ≤ m → m < n → n < stop → clock m < clock n

theorem Rising.sub {start stop start' stop' : Nat} (h : Rising clock start stop)
    (hstart : start ≤ start') (hstop : stop' ≤ stop) : Rising clock start' stop' :=
  fun m n hm hmn hn => h m n (by omega) hmn (by omega)

theorem Rising.le {start stop : Nat} (h : Rising clock start stop) {m n : Nat} (hm : start ≤ m)
    (hmn : m ≤ n) (hn : n < stop) : clock m ≤ clock n := by
  rcases Nat.lt_or_eq_of_le hmn with hlt | rfl
  · exact UInt64.le_of_lt (h m n hm hlt hn)
  · exact UInt64.le_refl _

/-- No place in the map of sent requests holds the request. -/
def Unsent (s : Session) (req : Ref) : Prop := ∀ id : MsgId, s.haveSent[id]? ≠ some req

/-- What giving an id to a request changes. -/
structure Identified (s s' : Session) (req : Ref) (msgId : MsgId) : Prop where
  drawn : s.drawn ≤ s'.drawn
  request : ∃ seqNo, s'.heap req = (s.heap req).identify msgId seqNo ∧
    ((s.heap req).msgId ≠ 0 → seqNo = (s.heap req).seqNo)
  heap : ∀ ref ≠ req, s.Unsent ref → s'.heap ref = s.heap ref
  ids : ∀ ref ≠ req, (s'.heap ref).msgId = (s.heap ref).msgId ∧
    (s'.heap ref).seqNo = (s.heap ref).seqNo
  toSend : s'.toSend = s.toSend
  inited : s'.inited = s.inited
  haveSent : ∀ id : MsgId, ((s.heap req).msgId ≠ 0 → id ≠ (s.heap req).msgId) → id ≠ msgId →
    s'.haveSent[id]? = s.haveSent[id]?
  wereAcked : ∀ id : MsgId, ((s.heap req).msgId ≠ 0 → id ≠ (s.heap req).msgId) → id ≠ msgId →
    s'.wereAcked[id]? = s.wereAcked[id]?
  unsent : ∀ ref, s.Unsent ref → s'.Unsent ref
  toResend : ∀ id : MsgId, s.toResend[id]? = none → s'.toResend[id]? = none
  resent : (s.heap req).msgId ≠ 0 → s'.toResend[(s.heap req).msgId]? = none

theorem prepareToSend_new {r : SecureRequestData} (hr : kMessageBodyPosition < r.size)
    (hid : r.msgId = 0) (last : MsgId) :
    ∃ seqNo sent, s.prepareToSend r last =
      (last, r.identify last seqNo, { s with messagesSent := sent }) := by
  have hsize : ¬r.size < 9 := by
    rw [kMessageBodyPosition] at hr
    omega
  rw [prepareToSend, if_neg hsize, if_neg (not_not.mpr hid)]
  exact ⟨_, _, rfl⟩

/-- The session once the request is not waited for by its old id. -/
def forgotten (s : Session) (req : Ref) : Session :=
  { s with toResend := s.toResend.erase (s.heap req).msgId }

theorem prepareToSend_again (hr : kMessageBodyPosition < (s.heap req).size)
    (hid : (s.heap req).msgId ≠ 0) (last : MsgId) :
    s.prepareToSend (s.heap req) last = ((s.heap req).msgId, s.heap req, s.forgotten req) := by
  have hsize : ¬(s.heap req).size < 9 := by
    rw [kMessageBodyPosition] at hr
    omega
  rw [prepareToSend, if_neg hsize, if_pos hid, forgotten]

theorem modifyRequest_self (s : Session) (req : Ref) :
    s.modifyRequest req (fun _ => s.heap req) = s := by
  rw [modifyRequest, Function.update_eq_self]

variable (clock) in
theorem identified_new (hid : (s.heap req).msgId = 0) (n : Nat) (seqNo sent : UInt32) :
    Identified s ({ s with messagesSent := sent }.modifyRequest req
      fun _ => (s.heap req).identify (clock n) seqNo) req (clock n) where
  drawn := Nat.le_refl _
  request := ⟨seqNo, by rw [modifyRequest_heap, if_pos rfl], fun h => absurd hid h⟩
  heap ref href _ := by rw [modifyRequest_heap, if_neg href]
  ids ref href := by
    rw [modifyRequest_heap, if_neg href]
    exact ⟨rfl, rfl⟩
  toSend := rfl
  inited := rfl
  haveSent _ _ _ := rfl
  wereAcked _ _ _ := rfl
  unsent _ h := h
  toResend _ h := h
  resent h := absurd hid h

theorem getElem?_erase_none {β : Type} {t : Std.ExtTreeMap MsgId β} {id old : MsgId}
    (h : t[id]? = none) : (t.erase old)[id]? = none := by
  rw [Std.ExtTreeMap.getElem?_erase]
  split
  · rfl
  · exact h

theorem identified_again (hr : kMessageBodyPosition < (s.heap req).size) :
    Identified s (s.forgotten req) req (s.heap req).msgId where
  drawn := Nat.le_refl _
  request := ⟨_, SecureRequestData.eq_identify hr, fun _ => rfl⟩
  heap _ _ _ := rfl
  ids _ _ := ⟨rfl, rfl⟩
  toSend := rfl
  inited := rfl
  haveSent _ _ _ := rfl
  wereAcked _ _ _ := rfl
  unsent _ h := h
  toResend _ h := getElem?_erase_none h
  resent _ := by rw [forgotten, Std.ExtTreeMap.getElem?_erase_self]

theorem getElem?_rekey_other {β : Type} {t : Std.ExtTreeMap MsgId β} {old new id : MsgId}
    (hold : id ≠ old) (hnew : id ≠ new) : (rekey t (old, new))[id]? = t[id]? := by
  rw [rekey]
  split
  · rfl
  · rw [Std.ExtTreeMap.getElem?_insert, Std.ExtTreeMap.getElem?_erase,
      if_neg fun h => hnew (Std.LawfulEqCmp.compare_eq_iff_eq.mp h).symm,
      if_neg fun h => hold (Std.LawfulEqCmp.compare_eq_iff_eq.mp h).symm]

theorem rekey_of_none {β : Type} {t : Std.ExtTreeMap MsgId β} {old new : MsgId}
    (h : t[old]? = none) : rekey t (old, new) = t := by
  rw [rekey]
  simp only [h]

theorem rekey_value {β : Type} {t : Std.ExtTreeMap MsgId β} {old new id : MsgId} {v : β}
    (h : (rekey t (old, new))[id]? = some v) : ∃ id' : MsgId, t[id']? = some v := by
  rw [rekey] at h
  split at h
  · exact ⟨id, h⟩
  · next w hw =>
    rw [Std.ExtTreeMap.getElem?_insert] at h
    split at h
    · exact ⟨old, by rw [hw, h]⟩
    · rw [Std.ExtTreeMap.getElem?_erase] at h
      split at h
      · cases h
      · exact ⟨id, h⟩

theorem getD_insert_idem (old new id : MsgId) :
    ((∅ : Std.ExtTreeMap MsgId MsgId).insert old new).getD
        (((∅ : Std.ExtTreeMap MsgId MsgId).insert old new).getD id id)
        (((∅ : Std.ExtTreeMap MsgId MsgId).insert old new).getD id id) =
      ((∅ : Std.ExtTreeMap MsgId MsgId).insert old new).getD id id := by
  simp only [getD_insert_empty]
  by_cases hid : id = old
  · rw [if_pos hid, ite_self]
  · rw [if_neg hid, if_neg hid]

/-- The maps after the id of a request was replaced by the id with number `k`. -/
def replacedAt (clock : Nat → MsgId) (s : Session) (req : Ref) (k drawn : Nat) : Session :=
  let s' := { s with drawn }.replaceKeys ((s.heap req).msgId, clock k)
  ((s'.haveSent.toList.map Prod.snd).foldl
    (replaceInContainer ((∅ : Std.ExtTreeMap MsgId MsgId).insert (s.heap req).msgId (clock k)))
    s').modifyRequest req (·.setMsgId (clock k))

variable (clock) in
theorem replaceMsgId_eq (hr : kMessageBodyPosition < (s.heap req).size)
    (hid : (s.heap req).msgId ≠ 0) {n : Nat} (hn : s.drawn = n + 1)
    (hlt : clock n < (s.heap req).msgId) :
    ∃ k drawn, n ≤ k ∧ k < drawn ∧ clock n ≤ clock k ∧
      s.replaceMsgId clock req (clock n) = (clock k, replacedAt clock s req k drawn) := by
  have hsize : ¬(s.heap req).size < 9 := by
    rw [kMessageBodyPosition] at hr
    omega
  have hne : (s.heap req).msgId ≠ clock n := (UInt64.ne_of_lt hlt).symm
  rw [replaceMsgId, if_neg hsize, if_neg hne, if_pos hid]
  obtain ⟨k, hk, hle, -, ⟨heq, -⟩ | ⟨heq, -, -⟩⟩ := unusedMsgId_cases clock s hn
  · exact ⟨k, k + 1, hk, Nat.lt_succ_self k, hle, by rw [heq]; rfl⟩
  · exact ⟨k, k + 2, hk, by omega, hle, by rw [heq]; rfl⟩

theorem drawn_replacedAt (clock : Nat → MsgId) (s : Session) (req : Ref) (k drawn : Nat) :
    (replacedAt clock s req k drawn).drawn = drawn := by
  have hmap := containersMapped_foldl
    ((∅ : Std.ExtTreeMap MsgId MsgId).insert (s.heap req).msgId (clock k))
    (getD_insert_idem _ _)
    (({ s with drawn }.replaceKeys ((s.heap req).msgId, clock k)).haveSent.toList.map Prod.snd)
    ({ s with drawn }.replaceKeys ((s.heap req).msgId, clock k))
  rw [replacedAt, modifyRequest, hmap.same, withHeap, replaceKeys]

theorem identified_replacedAt (hr : kMessageBodyPosition < (s.heap req).size)
    (hid : (s.heap req).msgId ≠ 0) (hun : s.Unsent req)
    (hresend : s.toResend[(s.heap req).msgId]? = none) {k drawn : Nat} (hk : s.drawn ≤ k + 1)
    (hdrawn : k < drawn) : Identified s (replacedAt clock s req k drawn) req (clock k) := by
  obtain ⟨s₂, hs₂⟩ : ∃ s₂ : Session,
      s₂ = { s with drawn }.replaceKeys ((s.heap req).msgId, clock k) := ⟨_, rfl⟩
  have hmap := containersMapped_foldl
    ((∅ : Std.ExtTreeMap MsgId MsgId).insert (s.heap req).msgId (clock k))
    (getD_insert_idem _ _) (s₂.haveSent.toList.map Prod.snd) s₂
  have hdef : replacedAt clock s req k drawn = ((s₂.haveSent.toList.map Prod.snd).foldl
      (replaceInContainer ((∅ : Std.ExtTreeMap MsgId MsgId).insert (s.heap req).msgId (clock k)))
      s₂).modifyRequest req (·.setMsgId (clock k)) := by rw [hs₂, replacedAt]
  rw [hdef]
  generalize (s₂.haveSent.toList.map Prod.snd).foldl (replaceInContainer
    ((∅ : Std.ExtTreeMap MsgId MsgId).insert (s.heap req).msgId (clock k))) s₂ = s₃ at hmap ⊢
  have hheap : s₂.heap = s.heap := by rw [hs₂, replaceKeys]
  have hsent : s₂.haveSent = rekey s.haveSent ((s.heap req).msgId, clock k) := by
    rw [hs₂, replaceKeys]
  have hkept : ∀ ref, s.Unsent ref → s₃.heap ref = s.heap ref := by
    intro ref href
    rw [hmap.skipped ref, hheap]
    intro hin
    obtain ⟨id, hget⟩ := Std.ExtTreeMap.mem_map_snd_toList.mp hin
    rw [hsent] at hget
    obtain ⟨id', hget'⟩ := rekey_value hget
    exact href id' hget'
  have hlast : (s₃.modifyRequest req (·.setMsgId (clock k))).drawn = drawn := by
    rw [modifyRequest, hmap.same, withHeap, hs₂, replaceKeys]
  refine ⟨by rw [hlast]; omega, ⟨(s.heap req).seqNo, ?_, fun _ => rfl⟩,
    fun ref href hunsent => ?_, fun ref href => ?_, ?_, ?_,
    fun id hold hnew => ?_, fun id hold hnew => ?_, fun ref href id hget => ?_, fun id hnone => ?_,
    fun _ => ?_⟩
  · rw [modifyRequest_heap, if_pos rfl, hkept req hun,
      SecureRequestData.setMsgId_eq_identify hr]
  · rw [modifyRequest_heap, if_neg href, hkept ref hunsent]
  · rw [modifyRequest_heap, if_neg href, hmap.msgId, hmap.seqNo, hheap]
    exact ⟨rfl, rfl⟩
  · rw [modifyRequest, hmap.toSend, hs₂, replaceKeys]
  · rw [modifyRequest, hmap.same, withHeap, hs₂, replaceKeys]
  · rw [modifyRequest, hmap.haveSent, hsent, getElem?_rekey_other (hold hid) hnew]
  · rw [modifyRequest, hmap.wereAcked, hs₂, replaceKeys, getElem?_rekey_other (hold hid) hnew]
  · rw [modifyRequest, hmap.haveSent, hsent] at hget
    obtain ⟨id', hget'⟩ := rekey_value hget
    exact href id' hget'
  · rw [modifyRequest, hmap.toResend, hs₂, replaceKeys, rekey_of_none hresend]
    exact hnone
  · rw [modifyRequest, hmap.toResend, hs₂, replaceKeys, rekey_of_none hresend]
    exact hresend

theorem Identified.of_erased {msgId : MsgId}
    (h : Identified (s.forgotten req) s' req msgId) :
    Identified s s' req msgId :=
  ⟨h.drawn, h.request, h.heap, h.ids, h.toSend, h.inited, h.haveSent, h.wereAcked,
    h.unsent, fun id hid => h.toResend id (getElem?_erase_none hid), h.resent⟩

theorem Identified.draw {msgId : MsgId} (h : Identified s s' req msgId) :
    Identified s { s' with drawn := s'.drawn + 1 } req msgId :=
  ⟨Nat.le_succ_of_le h.drawn, h.request, h.heap, h.ids, h.toSend, h.inited, h.haveSent, h.wereAcked,
    h.unsent, h.toResend, h.resent⟩

/-- A request got its id: it keeps an id below that of the container, or one of the
ids drawn now is its own and a later one is that of the container. -/
structure Assigned (clock : Nat → MsgId) (b b' : Building) (req : Ref) (msgId : MsgId) :
    Prop where
  identified : Identified b.s b'.s req msgId
  words : b'.words = b.words
  haveSentArr : b'.haveSentArr = b.haveSentArr ++ [msgId]
  big : ∃ n, b'.s.drawn = n + 1 ∧ b'.bigMsgId = clock n
  source : (b.s.heap req).msgId ≠ 0 ∧ msgId = (b.s.heap req).msgId ∧ msgId < b.bigMsgId ∧
      b'.bigMsgId = b.bigMsgId ∨
    ∃ k, b.s.drawn ≤ k + 1 ∧ k + 1 < b'.s.drawn ∧ msgId = clock k

theorem assigned_drawn {b : Building} {msgId : MsgId} {s₁ : Session} {k : Nat}
    (h : Identified b.s s₁ req msgId) (hk : b.s.drawn ≤ k + 1) (hlt : k < s₁.drawn)
    (hmsg : msgId = clock k) :
    Assigned clock b
      { b with
        s := { s₁ with drawn := s₁.drawn + 1 }
        bigMsgId := clock s₁.drawn
        haveSentArr := b.haveSentArr ++ [msgId] } req msgId :=
  ⟨h.draw, rfl, rfl, ⟨_, rfl, rfl⟩, .inr ⟨k, hk, Nat.succ_lt_succ hlt, hmsg⟩⟩

variable (clock) in
theorem assign_new {b : Building} (hr : kMessageBodyPosition < (b.s.heap req).size)
    (hid : (b.s.heap req).msgId = 0) :
    ∃ seqNo sent, b.assign clock req = (b.bigMsgId,
      { b with
        s := { { b.s with messagesSent := sent }.modifyRequest req
            (fun _ => (b.s.heap req).identify b.bigMsgId seqNo) with drawn := b.s.drawn + 1 }
        bigMsgId := clock b.s.drawn
        haveSentArr := b.haveSentArr ++ [b.bigMsgId] }) := by
  obtain ⟨seqNo, sent, heq⟩ := prepareToSend_new (s := b.s) hr hid b.bigMsgId
  refine ⟨seqNo, sent, ?_⟩
  rw [Building.assign, heq]
  dsimp only
  rw [if_neg (UInt64.lt_irrefl _), if_pos (UInt64.le_refl _)]
  rfl

theorem modifyRequest_forgotten (s : Session) (req : Ref) :
    (s.forgotten req).modifyRequest req (fun _ => s.heap req) = s.forgotten req :=
  modifyRequest_self (s.forgotten req) req

theorem assign_kept {b : Building} (hr : kMessageBodyPosition < (b.s.heap req).size)
    (hid : (b.s.heap req).msgId ≠ 0) (hlt : (b.s.heap req).msgId < b.bigMsgId) :
    b.assign clock req = ((b.s.heap req).msgId,
      { b with
        s := b.s.forgotten req
        haveSentArr := b.haveSentArr ++ [(b.s.heap req).msgId] }) := by
  rw [Building.assign, prepareToSend_again hr hid]
  dsimp only
  rw [modifyRequest_forgotten, if_neg (UInt64.lt_asymm hlt), if_neg (UInt64.not_le.mpr hlt)]

theorem assign_last {b : Building} (hr : kMessageBodyPosition < (b.s.heap req).size)
    (hid : (b.s.heap req).msgId ≠ 0) (heq : b.bigMsgId = (b.s.heap req).msgId) :
    b.assign clock req = (b.bigMsgId,
      { b with
        s := { b.s.forgotten req with drawn := b.s.drawn + 1 }
        bigMsgId := clock b.s.drawn
        haveSentArr := b.haveSentArr ++ [b.bigMsgId] }) := by
  rw [Building.assign, prepareToSend_again hr hid, ← heq]
  dsimp only
  rw [modifyRequest_forgotten, if_neg (UInt64.lt_irrefl _)]
  dsimp only
  rw [if_pos (UInt64.le_refl _)]
  rfl

theorem assign_replaced {b : Building} (hr : kMessageBodyPosition < (b.s.heap req).size)
    (hid : (b.s.heap req).msgId ≠ 0) (hlt : b.bigMsgId < (b.s.heap req).msgId) {msgId : MsgId}
    {s₁ : Session}
    (heq : (b.s.forgotten req).replaceMsgId clock req b.bigMsgId = (msgId, s₁))
    (hle : b.bigMsgId ≤ msgId) :
    b.assign clock req = (msgId,
      { b with
        s := { s₁ with drawn := s₁.drawn + 1 }
        bigMsgId := clock s₁.drawn
        haveSentArr := b.haveSentArr ++ [msgId] }) := by
  rw [Building.assign, prepareToSend_again hr hid]
  dsimp only
  rw [modifyRequest_forgotten, if_pos hlt, heq, if_pos hle, msgid]

theorem assigned_again {b : Building} {n : Nat} (hr : kMessageBodyPosition < (b.s.heap req).size)
    (hid : (b.s.heap req).msgId ≠ 0) (hn : b.s.drawn = n + 1) (hbig : b.bigMsgId = clock n)
    (hnlt : ¬b.bigMsgId < (b.s.heap req).msgId) :
    Assigned clock b (b.assign clock req).2 req (b.assign clock req).1 := by
  have hagain : Identified b.s (b.s.forgotten req) req (b.s.heap req).msgId :=
    identified_again hr
  by_cases heq : b.bigMsgId = (b.s.heap req).msgId
  · rw [assign_last hr hid heq]
    rw [← heq] at hagain
    exact assigned_drawn hagain (Nat.le_of_eq hn)
      (Nat.lt_of_lt_of_eq (Nat.lt_succ_self n) hn.symm) hbig
  · have hlt : (b.s.heap req).msgId < b.bigMsgId :=
      UInt64.lt_of_le_of_ne (UInt64.not_lt.mp hnlt) (Ne.symm heq)
    rw [assign_kept hr hid hlt]
    exact ⟨hagain, rfl, rfl, ⟨n, hn, hbig⟩, .inl ⟨hid, rfl, hlt, rfl⟩⟩

theorem assigned_replaced {b : Building} {n : Nat} (hr : kMessageBodyPosition < (b.s.heap req).size)
    (hid : (b.s.heap req).msgId ≠ 0) (hun : b.s.Unsent req) (hn : b.s.drawn = n + 1)
    (hbig : b.bigMsgId = clock n) (hlt : b.bigMsgId < (b.s.heap req).msgId) :
    Assigned clock b (b.assign clock req).2 req (b.assign clock req).1 := by
  obtain ⟨k, drawn, hk, hkd, hle, heq⟩ := replaceMsgId_eq clock
    (s := b.s.forgotten req) hr hid hn (hbig ▸ hlt)
  rw [← hbig] at heq hle
  have hstart : b.s.drawn ≤ k + 1 := by omega
  have hreplaced : Identified b.s (replacedAt clock (b.s.forgotten req) req k drawn) req
      (clock k) :=
    (identified_replacedAt (s := b.s.forgotten req) hr hid hun
      (by rw [forgotten, Std.ExtTreeMap.getElem?_erase_self]) hstart hkd).of_erased
  rw [assign_replaced hr hid hlt heq hle]
  refine assigned_drawn hreplaced hstart ?_ rfl
  rw [drawn_replacedAt]
  exact hkd

theorem assigned_new {b : Building} {n : Nat} (hr : kMessageBodyPosition < (b.s.heap req).size)
    (hid : (b.s.heap req).msgId = 0) (hn : b.s.drawn = n + 1) (hbig : b.bigMsgId = clock n) :
    Assigned clock b (b.assign clock req).2 req (b.assign clock req).1 := by
  obtain ⟨seqNo, sent, heq⟩ := assign_new clock hr hid
  rw [heq]
  have hnew := identified_new clock hid n seqNo sent
  rw [← hbig] at hnew
  exact assigned_drawn hnew (Nat.le_of_eq hn) (Nat.lt_of_lt_of_eq (Nat.lt_succ_self n) hn.symm) hbig

theorem assigned {b : Building} (hr : kMessageBodyPosition < (b.s.heap req).size)
    (hun : b.s.Unsent req) (hbig : ∃ n, b.s.drawn = n + 1 ∧ b.bigMsgId = clock n) :
    Assigned clock b (b.assign clock req).2 req (b.assign clock req).1 := by
  obtain ⟨n, hn, hbig⟩ := hbig
  by_cases hid : (b.s.heap req).msgId = 0
  · exact assigned_new hr hid hn hbig
  · by_cases hlt : b.bigMsgId < (b.s.heap req).msgId
    · exact assigned_replaced hr hid hun hn hbig hlt
    · exact assigned_again hr hid hn hbig hlt

end TelegramClient.Mtproto.Session
