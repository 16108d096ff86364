import Mathlib
import TelegramClient.Lib.TreeMap
import TelegramClient.Mtproto.Session

/-! Every request gets a new number when the session is reset, and a new id when
its id is above the ids the clock gives now. -/

namespace TelegramClient.Mtproto.Session

section

variable (clock : Nat → MsgId)

structure Renumbering where
  s : Session
  newId : MsgId
  replaces : Std.ExtTreeMap MsgId MsgId := ∅
  setSeqNumbers : Std.ExtTreeMap MsgId Ref := ∅

/-- The new id is drawn further only while it is in use, so that the requests
after the first may get the id of the first. -/
def renumber (r : Renumbering) (entry : MsgId × Ref) : Renumbering :=
  if (r.s.heap entry.2).isSentContainer then r
  else if (r.s.heap entry.2).msgId = 0 then r
  else if r.newId < entry.1 then
    let (newId, s) := r.s.unusedMsgId clock r.newId
    { s := s.modifyRequest entry.2 (·.setMsgId newId)
      newId
      replaces := r.replaces.insert entry.1 newId
      setSeqNumbers := r.setSeqNumbers.insert newId entry.2 }
  else { r with setSeqNumbers := r.setSeqNumbers.insert entry.1 entry.2 }

/-- The requests to resend that are still to be sent. -/
def resendEntries (s : Session) : List (MsgId × Ref) :=
  s.toResend.toList.filterMap fun entry => s.toSend[entry.2]?.map (entry.1, ·)

def generateSeqNumber (s : Session) (req : Ref) : Session :=
  let wasNeedAck := (s.heap req).seqNo &&& 1 ≠ 0
  let (seqNo, s) := s.nextRequestSeqNumber wasNeedAck
  s.modifyRequest req (·.setSeqNo seqNo)

def rekey {β : Type} (t : Std.ExtTreeMap MsgId β) (entry : MsgId × MsgId) :
    Std.ExtTreeMap MsgId β :=
  match t[entry.1]? with
  | none => t
  | some v => (t.erase entry.1).insert entry.2 v

def replaceKeys (s : Session) (entry : MsgId × MsgId) : Session :=
  { s with
    haveSent := rekey s.haveSent entry
    toResend := rekey s.toResend entry
    wereAcked := rekey s.wereAcked entry }

def replaceInContainer (replaces : Std.ExtTreeMap MsgId MsgId) (s : Session) (req : Ref) :
    Session :=
  if (s.heap req).isSentContainer then
    s.modifyRequest req (·.mapSentIds fun id => replaces.getD id id)
  else s

def finishReset (r : Renumbering) (session : UInt64) : Session :=
  let s := (r.setSeqNumbers.toList.map Prod.snd).foldl generateSeqNumber (r.s.setSession session)
  let s :=
    if r.replaces.isEmpty then s
    else
      let s := r.replaces.toList.foldl replaceKeys s
      (s.haveSent.toList.map Prod.snd).foldl (replaceInContainer r.replaces) s
  { s with ackRequestData := [], resendRequestData := [], stateRequest := ∅ }

/-- `session` is the random id of the new session. -/
def resetSession (s : Session) (session : UInt64) : Session :=
  let (newId, s₁) := s.msgid clock
  finishReset ((s.haveSent.toList ++ s.resendEntries).foldl (renumber clock) { s := s₁, newId })
    session

end

/-- The ids that requests are stored under are those written in them. -/
structure Consistent (s : Session) : Prop where
  sent : ∀ (id : MsgId) (req : Ref), s.haveSent[id]? = some req →
    (s.heap req).msgId = id ∧ ((s.heap req).isSentContainer ∨ (s.heap req).IsRequest)
  resend : ∀ (id : MsgId) (requestId : RequestId) (req : Ref), s.toResend[id]? = some requestId →
    s.toSend[requestId]? = some req → (s.heap req).msgId = id ∧ (s.heap req).IsRequest
  disjoint : ∀ id : MsgId, id ∈ s.haveSent → id ∉ s.toResend
  sent_ne_zero : 0 ∉ s.haveSent
  resend_ne_zero : 0 ∉ s.toResend

/-- The request that an id names. -/
def requestAt (s : Session) (id : MsgId) : Option Ref :=
  match s.haveSent[id]? with
  | some req => some req
  | none => s.toResend[id]?.bind (s.toSend[·]?)

/-- What the id of a request became. -/
def renamed (s s' : Session) (id : MsgId) : MsgId :=
  match s.requestAt id with
  | some req => (s'.heap req).msgId
  | none => id

/-- Every request is still there once, under an id of its own that is also written
in it and in the containers that mention it. -/
structure KeepsIds (s s' : Session) : Prop where
  sent : ∀ (id : MsgId) (req : Ref), s.haveSent[id]? = some req →
    ∃! id' : MsgId, s'.haveSent[id']? = some req
  resend : ∀ (id : MsgId) (requestId : RequestId) (req : Ref), s.toResend[id]? = some requestId →
    s.toSend[requestId]? = some req →
    s'.toSend[requestId]? = some req ∧ ∃! id' : MsgId, s'.toResend[id']? = some requestId
  disjoint : ∀ id : MsgId, id ∈ s'.haveSent → id ∉ s'.toResend
  sent_id : ∀ (id : MsgId) (req : Ref), s'.haveSent[id]? = some req → (s'.heap req).msgId = id
  resend_id : ∀ (id : MsgId) (requestId : RequestId) (req : Ref),
    s'.toResend[id]? = some requestId → s'.toSend[requestId]? = some req →
    (s'.heap req).msgId = id
  acked : ∀ (id : MsgId) (requestId : RequestId), s.wereAcked[id]? = some requestId →
    s'.wereAcked[s.renamed s' id]? = some requestId
  containers : ∀ (id : MsgId) (req : Ref), s.haveSent[id]? = some req →
    (s.heap req).isSentContainer → (s'.heap req).sentIds = (s.heap req).sentIds.map (s.renamed s')
  bodies : ∀ (id : MsgId) (req : Ref), s.requestAt id = some req →
    (s.heap req).isSentContainer = false → (s'.heap req).body = (s.heap req).body

/-! ### The requests of a session -/

variable {clock : Nat → MsgId} {s s' : Session} {id : MsgId} {req : Ref}

theorem mem_resendEntries : (id, req) ∈ s.resendEntries ↔
    ∃ requestId, s.toResend[id]? = some requestId ∧ s.toSend[requestId]? = some req := by
  simp only [resendEntries, List.mem_filterMap, Option.map_eq_some_iff, Prod.exists,
    Std.ExtTreeMap.mem_toList_iff_getElem?_eq_some, Prod.mk.injEq]
  constructor
  · rintro ⟨id', requestId, hid, req', hreq, rfl, rfl⟩
    exact ⟨requestId, hid, hreq⟩
  · rintro ⟨requestId, hid, hreq⟩
    exact ⟨id, requestId, hid, req, hreq, rfl, rfl⟩

/-- The requests in the order they are renumbered. -/
def requestEntries (s : Session) : List (MsgId × Ref) :=
  (s.haveSent.toList ++ s.resendEntries).filter fun entry => !(s.heap entry.2).isSentContainer

theorem mem_requestEntries : (id, req) ∈ s.requestEntries ↔
    (s.haveSent[id]? = some req ∨
      ∃ requestId, s.toResend[id]? = some requestId ∧ s.toSend[requestId]? = some req) ∧
    (s.heap req).isSentContainer = false := by
  simp only [requestEntries, List.mem_filter, List.mem_append, mem_resendEntries,
    Std.ExtTreeMap.mem_toList_iff_getElem?_eq_some, Bool.not_eq_true']

namespace Consistent

theorem request (h : s.Consistent) (hmem : (id, req) ∈ s.requestEntries) :
    (s.heap req).msgId = id ∧ (s.heap req).IsRequest ∧ id ≠ 0 := by
  obtain ⟨hin | ⟨requestId, hresend, hsend⟩, hcont⟩ := mem_requestEntries.mp hmem
  · obtain ⟨hid, hc | hr⟩ := h.sent id req hin
    · rw [hc] at hcont
      cases hcont
    · exact ⟨hid, hr, fun h0 =>
        h.sent_ne_zero (h0 ▸ Std.ExtTreeMap.mem_of_getElem?_eq_some hin)⟩
  · obtain ⟨hid, hr⟩ := h.resend id requestId req hresend hsend
    exact ⟨hid, hr, fun h0 =>
      h.resend_ne_zero (h0 ▸ Std.ExtTreeMap.mem_of_getElem?_eq_some hresend)⟩

theorem nodup_requestEntries (h : s.Consistent) : (s.requestEntries.map Prod.fst).Nodup := by
  have hsent : (s.haveSent.toList.map Prod.fst).Nodup := by
    refine List.pairwise_map.mpr (Std.ExtTreeMap.distinct_keys_toList.imp ?_)
    exact fun hne heq => hne (Std.LawfulEqCmp.compare_eq_iff_eq.mpr heq)
  have hresend : (s.resendEntries.map Prod.fst).Nodup := by
    refine List.pairwise_map.mpr (List.pairwise_filterMap.mpr ?_)
    refine Std.ExtTreeMap.distinct_keys_toList.imp fun {a b} hne x hx y hy heq => ?_
    obtain ⟨_, _, rfl⟩ := Option.map_eq_some_iff.mp hx
    obtain ⟨_, _, rfl⟩ := Option.map_eq_some_iff.mp hy
    exact hne (Std.LawfulEqCmp.compare_eq_iff_eq.mpr heq)
  refine ((List.filter_sublist).map Prod.fst).nodup ?_
  rw [List.map_append, List.nodup_append]
  refine ⟨hsent, hresend, ?_⟩
  intro id hin id' hin' heq
  obtain ⟨⟨a, req⟩, hsent, rfl⟩ := List.mem_map.mp hin
  obtain ⟨⟨b, req'⟩, hresend, rfl⟩ := List.mem_map.mp hin'
  obtain rfl : a = b := heq
  obtain ⟨requestId, hres, -⟩ := mem_resendEntries.mp hresend
  have hsent' := Std.ExtTreeMap.mem_toList_iff_getElem?_eq_some.mp hsent
  exact h.disjoint a (Std.ExtTreeMap.mem_of_getElem?_eq_some hsent')
    (Std.ExtTreeMap.mem_of_getElem?_eq_some hres)

theorem nodup_refs (h : s.Consistent) : (s.requestEntries.map Prod.snd).Nodup := by
  refine List.pairwise_map.mpr ((List.pairwise_map.mp h.nodup_requestEntries).imp_of_mem ?_)
  rintro ⟨id, req⟩ ⟨id', req'⟩ hin hin' hne (rfl : req = req')
  exact hne ((h.request hin).1.symm.trans (h.request hin').1)

end Consistent

/-! ### The new ids -/

@[simp] theorem modifyRequest_heap (s : Session) (req ref : Ref)
    (f : SecureRequestData → SecureRequestData) :
    (s.modifyRequest req f).heap ref = if ref = req then f (s.heap req) else s.heap ref := by
  simp only [modifyRequest, Function.update_apply]

theorem unusedMsgId_snd (clock : Nat → MsgId) (s : Session) (newId : MsgId) :
    ∃ n, (s.unusedMsgId clock newId).2 = { s with drawn := n } := by
  fun_induction unusedMsgId clock s newId with
  | case1 s newId => exact ⟨_, rfl⟩
  | case2 s newId _ _ ih => exact ih
  | case3 s newId => exact ⟨s.drawn, rfl⟩

/-- A renumbering of the requests of a session has changed ids only. -/
structure Renumbering.Of (s : Session) (r : Renumbering) : Prop where
  kind : ∀ ref, (r.s.heap ref).isSentContainer = (s.heap ref).isSentContainer
  numbered : ∀ (id : MsgId) (req : Ref), r.setSeqNumbers[id]? = some req →
    (s.heap req).isSentContainer = false
  haveSent : r.s.haveSent = s.haveSent
  toResend : r.s.toResend = s.toResend
  toSend : r.s.toSend = s.toSend
  wereAcked : r.s.wereAcked = s.wereAcked

variable {r : Renumbering} {entry : MsgId × Ref} {entries : List (MsgId × Ref)}

theorem Renumbering.Of.numbered_insert (h : r.Of s) (hc : (r.s.heap req).isSentContainer = false)
    (newId : MsgId) (id : MsgId) (req' : Ref)
    (hget : (r.setSeqNumbers.insert newId req)[id]? = some req') :
    (s.heap req').isSentContainer = false := by
  rw [Std.ExtTreeMap.getElem?_insert] at hget
  split at hget
  · cases hget
    rw [← h.kind, hc]
  · exact h.numbered id req' hget

theorem Renumbering.Of.step (h : r.Of s) (clock : Nat → MsgId) (entry : MsgId × Ref) :
    (renumber clock r entry).Of s := by
  rw [renumber]
  split
  · exact h
  next hc =>
  rw [Bool.not_eq_true] at hc
  split
  · exact h
  split
  · obtain ⟨n, hs⟩ := unusedMsgId_snd clock r.s r.newId
    dsimp only
    rw [hs]
    refine ⟨fun ref => ?_, h.numbered_insert hc _, h.haveSent, h.toResend, h.toSend, h.wereAcked⟩
    rw [modifyRequest_heap]
    split
    · next href => rw [SecureRequestData.isSentContainer_setMsgId, href, ← h.kind]
    · exact h.kind ref
  · exact ⟨h.kind, h.numbered_insert hc _, h.haveSent, h.toResend, h.toSend, h.wereAcked⟩

theorem Renumbering.Of.foldl (h : r.Of s) (clock : Nat → MsgId) (entries : List (MsgId × Ref)) :
    (entries.foldl (renumber clock) r).Of s := by
  induction entries generalizing r with
  | nil => exact h
  | cons entry entries ih => exact ih (h.step clock entry)

theorem foldl_renumber_filter (h : r.Of s) (entries : List (MsgId × Ref)) :
    entries.foldl (renumber clock) r =
      (entries.filter fun entry => !(s.heap entry.2).isSentContainer).foldl (renumber clock) r := by
  induction entries generalizing r with
  | nil => rfl
  | cons entry entries ih =>
    cases hc : (s.heap entry.2).isSentContainer with
    | true =>
      have hskip : renumber clock r entry = r := by rw [renumber, if_pos (by rw [h.kind, hc])]
      rw [List.filter_cons_of_neg (by simp [hc]), List.foldl_cons, hskip, ih h]
    | false =>
      rw [List.filter_cons_of_pos (by simp [hc]), List.foldl_cons, List.foldl_cons,
        ih (h.step clock entry)]

theorem renumber_of_le (clock : Nat → MsgId) (h : entry.1 ≤ r.newId) :
    ∃ m, renumber clock r entry = { r with setSeqNumbers := m } := by
  rw [renumber, if_neg (UInt64.not_lt.mpr h)]
  split
  · exact ⟨_, rfl⟩
  split
  · exact ⟨_, rfl⟩
  · exact ⟨_, rfl⟩

theorem foldl_renumber_of_le (clock : Nat → MsgId) (r : Renumbering) (entries : List (MsgId × Ref))
    (h : ∀ entry ∈ entries, entry.1 ≤ r.newId) :
    ∃ m, entries.foldl (renumber clock) r = { r with setSeqNumbers := m } := by
  induction entries generalizing r with
  | nil => exact ⟨_, rfl⟩
  | cons entry entries ih =>
    rw [List.forall_mem_cons] at h
    obtain ⟨m, hm⟩ := renumber_of_le clock h.1
    rw [List.foldl_cons, hm]
    exact ih _ h.2

theorem renumber_of_lt (hreq : (r.s.heap req).IsRequest) (hne : (r.s.heap req).msgId ≠ 0)
    (hlt : r.newId < id) {newId : MsgId} {s' : Session}
    (hnew : r.s.unusedMsgId clock r.newId = (newId, s')) :
    renumber clock r (id, req) =
      { s := s'.modifyRequest req (·.setMsgId newId)
        newId
        replaces := r.replaces.insert id newId
        setSeqNumbers := r.setSeqNumbers.insert newId req } := by
  rw [renumber, if_neg (by rw [hreq.not_container]; exact Bool.false_ne_true), if_neg hne,
    if_pos hlt, hnew]

/-- Once an unused id was found all later requests above it get this id. -/
theorem foldl_renumber_msgId (r : Renumbering) (entries : List (MsgId × Ref))
    (hfree : r.s.msgIdInUse r.newId = false)
    (hnodup : (entries.map Prod.snd).Nodup)
    (hreq : ∀ entry ∈ entries, (r.s.heap entry.2).IsRequest ∧ (r.s.heap entry.2).msgId ≠ 0) :
    (∀ entry ∈ entries, r.newId < entry.1 →
      ((entries.foldl (renumber clock) r).s.heap entry.2).msgId = r.newId) ∧
    ∀ ref ∉ entries.map Prod.snd,
      (entries.foldl (renumber clock) r).s.heap ref = r.s.heap ref := by
  induction entries generalizing r with
  | nil => exact ⟨fun entry h => absurd h List.not_mem_nil, fun ref _ => rfl⟩
  | cons entry entries ih =>
    obtain ⟨id, req⟩ := entry
    rw [List.forall_mem_cons] at hreq
    rw [List.map_cons, List.nodup_cons] at hnodup
    have hnew := unusedMsgId_of_not_inUse clock hfree
    rw [List.foldl_cons]
    by_cases hlt : r.newId < id
    · rw [renumber_of_lt hreq.1.1 hreq.1.2 hlt hnew]
      have hother : ∀ ref, ref ≠ req →
          (r.s.modifyRequest req (·.setMsgId r.newId)).heap ref = r.s.heap ref := by
        intro ref href
        rw [modifyRequest_heap, if_neg href]
      obtain ⟨hset, hkeep⟩ := ih { r with
          s := r.s.modifyRequest req (·.setMsgId r.newId)
          replaces := r.replaces.insert id r.newId
          setSeqNumbers := r.setSeqNumbers.insert r.newId req } hfree hnodup.2 (by
        intro entry hin
        have hne : entry.2 ≠ req := fun heq => hnodup.1 (List.mem_map.mpr ⟨entry, hin, heq⟩)
        rw [hother _ hne]
        exact hreq.2 entry hin)
      refine ⟨List.forall_mem_cons.mpr ⟨fun _ => ?_, hset⟩, fun ref href => ?_⟩
      · rw [hkeep req hnodup.1, modifyRequest_heap, if_pos rfl,
          SecureRequestData.msgId_setMsgId hreq.1.1.1]
      · rw [List.map_cons, List.mem_cons, not_or] at href
        rw [hkeep ref href.2, hother ref href.1]
    · obtain ⟨m, hm⟩ := renumber_of_le clock (show (id, req).1 ≤ r.newId from UInt64.not_lt.mp hlt)
      rw [hm]
      obtain ⟨hset, hkeep⟩ := ih { r with setSeqNumbers := m } hfree hnodup.2 hreq.2
      refine ⟨List.forall_mem_cons.mpr ⟨fun h => absurd h hlt, hset⟩, fun ref href => ?_⟩
      exact hkeep ref fun hin => href (List.mem_cons_of_mem _ hin)

/-! ### The new numbers -/

/-- The requests of a list have got new numbers. -/
structure Numbered (refs : List Ref) (s s' : Session) : Prop where
  haveSent : s'.haveSent = s.haveSent
  toResend : s'.toResend = s.toResend
  toSend : s'.toSend = s.toSend
  wereAcked : s'.wereAcked = s.wereAcked
  msgId : ∀ ref, (s'.heap ref).msgId = (s.heap ref).msgId
  body : ∀ ref, (s'.heap ref).body = (s.heap ref).body
  request : ∀ ref, (s.heap ref).IsRequest → (s'.heap ref).IsRequest
  other : ∀ ref ∉ refs, s'.heap ref = s.heap ref

theorem generateSeqNumber_eq (s : Session) (req : Ref) :
    ∃ seqNo messagesSent, s.generateSeqNumber req =
        { s with messagesSent }.modifyRequest req (·.setSeqNo seqNo) ∧
      ((s.heap req).seqNo.toNat % 2 = 1 → seqNo.toNat % 2 = 1) := by
  refine ⟨_, _, rfl, fun hodd => ?_⟩
  have hack : (s.heap req).seqNo &&& 1 ≠ 0 := by
    intro h
    have hnat := congrArg UInt32.toNat h
    rw [UInt32.toNat_and, UInt32.toNat_one, Nat.and_one_is_mod, hodd] at hnat
    cases hnat
  simp only [hack, ne_eq, not_false_eq_true, decide_true, if_true,
    UInt32.toNat_add, UInt32.toNat_mul]
  change (s.messagesSent.toNat * 2 % 2 ^ 32 + 1) % 2 ^ 32 % 2 = 1
  omega

theorem numbered_generate (s : Session) (req : Ref) (refs : List Ref) :
    Numbered (req :: refs) s (s.generateSeqNumber req) := by
  obtain ⟨seqNo, messagesSent, heq, hodd⟩ := s.generateSeqNumber_eq req
  rw [heq]
  refine ⟨rfl, rfl, rfl, rfl, fun ref => ?_, fun ref => ?_, fun ref hr => ?_, fun ref href => ?_⟩
  · rw [modifyRequest_heap]
    split
    · next h => rw [SecureRequestData.msgId_setSeqNo, h]
    · rfl
  · rw [modifyRequest_heap]
    split
    · next h => rw [SecureRequestData.body_setSeqNo, h]
    · rfl
  · rw [modifyRequest_heap]
    split
    · next h => exact (h ▸ hr).setSeqNo hodd
    · exact hr
  · rw [modifyRequest_heap, if_neg]
    rintro rfl
    exact href List.mem_cons_self

theorem numbered_foldl (refs : List Ref) (s : Session) :
    Numbered refs s (refs.foldl generateSeqNumber s) := by
  induction refs generalizing s with
  | nil => exact ⟨rfl, rfl, rfl, rfl, fun _ => rfl, fun _ => rfl, fun _ => id, fun _ _ => rfl⟩
  | cons req refs ih =>
    have h := numbered_generate s req refs
    have h' := ih (s.generateSeqNumber req)
    exact ⟨h'.haveSent.trans h.haveSent, h'.toResend.trans h.toResend, h'.toSend.trans h.toSend,
      h'.wereAcked.trans h.wereAcked, fun ref => (h'.msgId ref).trans (h.msgId ref),
      fun ref => (h'.body ref).trans (h.body ref), fun ref hr => h'.request ref (h.request ref hr),
      fun ref href => (h'.other ref fun hin => href (List.mem_cons_of_mem _ hin)).trans
        (h.other ref href)⟩

/-! ### The ids in the maps and in the containers -/

theorem getElem?_rekey {β : Type} {t : Std.ExtTreeMap MsgId β} {oldId newId : MsgId}
    (hnew : t[newId]? = none) (k : MsgId) :
    (rekey t (oldId, newId))[k]? =
      if k = newId then t[oldId]? else if k = oldId then none else t[k]? := by
  rw [rekey]
  cases hold : t[oldId]? with
  | none =>
    dsimp only
    split
    · next h => rw [h, hnew]
    split
    · next h => rw [h, hold]
    · rfl
  | some v =>
    simp only [Std.ExtTreeMap.getElem?_insert, Std.ExtTreeMap.getElem?_erase,
      Std.LawfulEqCmp.compare_eq_iff_eq, eq_comm (b := k)]

/-- The ids in the containers of a list are replaced. -/
structure ContainersMapped (f : MsgId → MsgId) (refs : List Ref) (s s' : Session) : Prop where
  same : s' = s.withHeap s'.heap
  msgId : ∀ ref, (s'.heap ref).msgId = (s.heap ref).msgId
  seqNo : ∀ ref, (s'.heap ref).seqNo = (s.heap ref).seqNo
  kind : ∀ ref, (s'.heap ref).isSentContainer = (s.heap ref).isSentContainer
  other : ∀ ref, (s.heap ref).isSentContainer = false → s'.heap ref = s.heap ref
  sentIds : ∀ ref ∈ refs, (s.heap ref).isSentContainer →
    (s'.heap ref).sentIds = (s.heap ref).sentIds.map f
  skipped : ∀ ref ∉ refs, s'.heap ref = s.heap ref

section

variable {f : MsgId → MsgId} {refs : List Ref} (h : ContainersMapped f refs s s')

include h

theorem ContainersMapped.haveSent : s'.haveSent = s.haveSent :=
  (congrArg Session.haveSent h.same).trans rfl

theorem ContainersMapped.toResend : s'.toResend = s.toResend :=
  (congrArg Session.toResend h.same).trans rfl

theorem ContainersMapped.toSend : s'.toSend = s.toSend :=
  (congrArg Session.toSend h.same).trans rfl

theorem ContainersMapped.wereAcked : s'.wereAcked = s.wereAcked :=
  (congrArg Session.wereAcked h.same).trans rfl

end

variable (replaces : Std.ExtTreeMap MsgId MsgId)

theorem containersMapped_step (s : Session) (req : Ref) :
    ContainersMapped (fun id => replaces.getD id id) [req] s
      (s.replaceInContainer replaces req) := by
  rw [replaceInContainer]
  split
  · next hc =>
    refine ⟨rfl, fun ref => ?_, fun ref => ?_, fun ref => ?_, fun ref hr => ?_,
      fun ref href hr => ?_, fun ref href => ?_⟩
    · rw [modifyRequest_heap]
      split
      · next h => rw [SecureRequestData.msgId_mapSentIds, h]
      · rfl
    · rw [modifyRequest_heap]
      split
      · next h => rw [SecureRequestData.seqNo_mapSentIds, h]
      · rfl
    · rw [modifyRequest_heap]
      split
      · next h => rw [SecureRequestData.isSentContainer_mapSentIds, h]
      · rfl
    · rw [modifyRequest_heap, if_neg]
      rintro rfl
      rw [hc] at hr
      cases hr
    · rw [List.mem_singleton] at href
      subst href
      rw [modifyRequest_heap, if_pos rfl, SecureRequestData.sentIds_mapSentIds
        (SecureRequestData.isSentContainer_iff.mp hr).1]
    · rw [modifyRequest_heap, if_neg fun h => href (List.mem_singleton.mpr h)]
  · next hc =>
    refine ⟨rfl, fun _ => rfl, fun _ => rfl, fun _ => rfl, fun _ _ => rfl,
      fun ref href hr => ?_, fun _ _ => rfl⟩
    rw [List.mem_singleton] at href
    exact absurd (href ▸ hr) hc

/-- A container that stands twice in the list is not changed a second time. -/
theorem containersMapped_foldl
    (hidem : ∀ id, replaces.getD (replaces.getD id id) (replaces.getD id id) =
      replaces.getD id id) (refs : List Ref) (s : Session) :
    ContainersMapped (fun id => replaces.getD id id) refs s
      (refs.foldl (replaceInContainer replaces) s) := by
  induction refs generalizing s with
  | nil =>
    exact ⟨rfl, fun _ => rfl, fun _ => rfl, fun _ => rfl, fun _ _ => rfl,
      fun ref href => absurd href List.not_mem_nil, fun _ _ => rfl⟩
  | cons req refs ih =>
    have h := containersMapped_step replaces s req
    have h' := ih (s.replaceInContainer replaces req)
    refine ⟨?_, fun ref => (h'.msgId ref).trans (h.msgId ref),
      fun ref => (h'.seqNo ref).trans (h.seqNo ref), fun ref => (h'.kind ref).trans (h.kind ref),
      fun ref hr => ?_, fun ref href hr => ?_, fun ref href => ?_⟩
    · have hsame := congrArg
        (withHeap · (refs.foldl (replaceInContainer replaces) (s.replaceInContainer replaces req)).heap)
        h.same
      exact h'.same.trans hsame
    · exact (h'.other ref (by rw [h.kind, hr])).trans (h.other ref hr)
    · have hr' : ((s.replaceInContainer replaces req).heap ref).isSentContainer := by
        rw [h.kind, hr]
      by_cases hreq : ref = req
      · have hone := h.sentIds ref (List.mem_singleton.mpr hreq) hr
        by_cases hin : ref ∈ refs
        · rw [List.foldl_cons, h'.sentIds ref hin hr', hone, List.map_map]
          exact List.map_congr_left fun id _ => hidem id
        · rw [List.foldl_cons, h'.skipped ref hin, hone]
      · have hin : ref ∈ refs := (List.mem_cons.mp href).resolve_left hreq
        rw [List.foldl_cons, h'.sentIds ref hin hr',
          h.skipped ref fun hs => hreq (List.mem_singleton.mp hs)]
    · rw [List.mem_cons, not_or] at href
      exact (h'.skipped ref href.2).trans
        (h.skipped ref fun hs => href.1 (List.mem_singleton.mp hs))

/-! ### Sessions after a reset -/

/-- All maps follow a renaming that keeps the ids in use apart. -/
structure Follows (f : MsgId → MsgId) (s s' : Session) : Prop where
  injective : ∀ a b : MsgId, a ∈ s.haveSent ∨ a ∈ s.toResend → b ∈ s.haveSent ∨ b ∈ s.toResend →
    f a = f b → a = b
  unnamed : ∀ id : MsgId, s.requestAt id = none → f id = id
  haveSent : ∀ (id : MsgId) (req : Ref),
    s'.haveSent[id]? = some req ↔ ∃ old : MsgId, f old = id ∧ s.haveSent[old]? = some req
  toResend : ∀ (id : MsgId) (requestId : RequestId),
    s'.toResend[id]? = some requestId ↔
      ∃ old : MsgId, f old = id ∧ s.toResend[old]? = some requestId
  toSend : s'.toSend = s.toSend
  wereAcked : ∀ (id : MsgId) (requestId : RequestId), s.wereAcked[id]? = some requestId →
    s'.wereAcked[f id]? = some requestId
  msgId : ∀ (id : MsgId) (req : Ref), s.requestAt id = some req → (s'.heap req).msgId = f id
  sentIds : ∀ (id : MsgId) (req : Ref), s.haveSent[id]? = some req →
    (s.heap req).isSentContainer → (s'.heap req).sentIds = (s.heap req).sentIds.map f
  body : ∀ (id : MsgId) (req : Ref), s.requestAt id = some req →
    (s.heap req).isSentContainer = false → (s'.heap req).body = (s.heap req).body

theorem requestAt_sent (h : s.haveSent[id]? = some req) : s.requestAt id = some req := by
  rw [requestAt, h]

theorem Consistent.requestAt_resend (hs : s.Consistent) {requestId : RequestId}
    (h : s.toResend[id]? = some requestId) (h' : s.toSend[requestId]? = some req) :
    s.requestAt id = some req := by
  have hsent : s.haveSent[id]? = none := by
    refine Std.ExtTreeMap.getElem?_eq_none fun hin => ?_
    exact hs.disjoint id hin (Std.ExtTreeMap.mem_of_getElem?_eq_some h)
  rw [requestAt, hsent, h]
  exact h'

variable {f : MsgId → MsgId}

theorem Follows.renamed_eq (h : s.Follows f s') (id : MsgId) : s.renamed s' id = f id := by
  rw [renamed]
  cases hreq : s.requestAt id with
  | none => exact (h.unnamed id hreq).symm
  | some req => exact h.msgId id req hreq

theorem Follows.keepsIds (h : s.Follows f s') (hs : s.Consistent) : s.KeepsIds s' := by
  have hsent_id : ∀ (id : MsgId) (req : Ref), s'.haveSent[id]? = some req →
      (s'.heap req).msgId = id := by
    intro id req hget
    obtain ⟨old, rfl, hold⟩ := (h.haveSent id req).mp hget
    exact h.msgId old req (requestAt_sent hold)
  have hresend_id : ∀ (id : MsgId) (requestId : RequestId) (req : Ref),
      s'.toResend[id]? = some requestId → s'.toSend[requestId]? = some req →
      (s'.heap req).msgId = id := by
    intro id requestId req hget hsend
    rw [h.toSend] at hsend
    obtain ⟨old, rfl, hold⟩ := (h.toResend id requestId).mp hget
    exact h.msgId old req (hs.requestAt_resend hold hsend)
  refine ⟨fun id req hget => ?_, fun id requestId req hget hsend => ?_, fun id hin hin' => ?_,
    hsent_id, hresend_id, fun id requestId hget => ?_, fun id req hget hc => ?_, h.body⟩
  · exact ⟨f id, (h.haveSent _ req).mpr ⟨id, rfl, hget⟩, fun id' hget' =>
      (hsent_id id' req hget').symm.trans (h.msgId id req (requestAt_sent hget))⟩
  · rw [h.toSend]
    refine ⟨hsend, f id, (h.toResend _ requestId).mpr ⟨id, rfl, hget⟩, fun id' hget' => ?_⟩
    have hid' := hresend_id id' requestId req hget' (by rw [h.toSend, hsend])
    exact hid'.symm.trans (h.msgId id req (hs.requestAt_resend hget hsend))
  · obtain ⟨req, hget⟩ := Option.isSome_iff_exists.mp (Std.ExtTreeMap.mem_iff_isSome_getElem?.mp hin)
    obtain ⟨requestId, hget'⟩ :=
      Option.isSome_iff_exists.mp (Std.ExtTreeMap.mem_iff_isSome_getElem?.mp hin')
    obtain ⟨a, ha, hsent⟩ := (h.haveSent id req).mp hget
    obtain ⟨b, hb, hresend⟩ := (h.toResend id requestId).mp hget'
    have hain := Std.ExtTreeMap.mem_of_getElem?_eq_some hsent
    have hbin := Std.ExtTreeMap.mem_of_getElem?_eq_some hresend
    have hab := h.injective a b (.inl hain) (.inr hbin) (ha.trans hb.symm)
    exact hs.disjoint a hain (hab ▸ hbin)
  · rw [h.renamed_eq]
    exact h.wereAcked id requestId hget
  · rw [h.sentIds id req hget hc]
    exact List.map_congr_left fun id _ => (h.renamed_eq id).symm

theorem setSession_eq (s : Session) (session : UInt64) :
    ∃ messagesSent, s.setSession session = { s with session, messagesSent } := by
  rw [setSession]
  split
  · exact ⟨0, rfl⟩
  · next h =>
    rw [not_not] at h
    exact ⟨s.messagesSent, by rw [← h]⟩

theorem Consistent.requestAt_msgId (hs : s.Consistent) (h : s.requestAt id = some req) :
    (s.heap req).msgId = id ∧ ((s.heap req).isSentContainer ∨ (s.heap req).IsRequest) := by
  rw [requestAt] at h
  cases hsent : s.haveSent[id]? with
  | some req' =>
    rw [hsent] at h
    cases h
    exact hs.sent id req hsent
  | none =>
    rw [hsent] at h
    obtain ⟨requestId, hresend, hsend⟩ := Option.bind_eq_some_iff.mp h
    exact And.imp_right .inr (hs.resend id requestId req hresend hsend)

theorem Consistent.requestAt_request (hs : s.Consistent) (h : s.requestAt id = some req)
    (hc : (s.heap req).isSentContainer = false) : (s.heap req).IsRequest :=
  (hs.requestAt_msgId h).2.resolve_left (by rw [hc]; exact Bool.false_ne_true)

/-- Nothing but the numbers changes when no request is above the new id. -/
theorem follows_of_none {refs : List Ref} {s₂ : Session} (hs : s.Consistent)
    (h : Numbered refs s s₂) : s.Follows (fun id => id) s₂ := by
  refine ⟨fun a b _ _ h => h, fun _ _ => rfl, fun id req => ?_, fun id requestId => ?_,
    h.toSend, fun id requestId hget => ?_, fun id req hat => ?_, fun id req hget hc => ?_,
    fun id req hat hc => h.body req⟩
  · simp only [h.haveSent, exists_eq_left]
  · simp only [h.toResend, exists_eq_left]
  · rw [h.wereAcked]
    exact hget
  · exact (h.msgId req).trans (hs.requestAt_msgId hat).1
  · rw [List.map_id', SecureRequestData.sentIds, h.body]
    rfl

theorem rekey_iff {β : Type} {t : Std.ExtTreeMap MsgId β} {oldId newId : MsgId}
    (hne : oldId ≠ newId) (hnew : t[newId]? = none) (k : MsgId) (v : β) :
    (rekey t (oldId, newId))[k]? = some v ↔
      ∃ old : MsgId, (if old = oldId then newId else old) = k ∧ t[old]? = some v := by
  rw [getElem?_rekey hnew]
  constructor
  · intro h
    split at h
    · next hk => exact ⟨oldId, by rw [if_pos rfl, hk], h⟩
    split at h
    · cases h
    · next hk => exact ⟨k, if_neg hk, h⟩
  · rintro ⟨old, rfl, h⟩
    by_cases hold : old = oldId
    · rw [if_pos hold, if_pos rfl, ← hold, h]
    · have hnewId : old ≠ newId := by
        rintro rfl
        rw [hnew] at h
        cases h
      rw [if_neg hold, if_neg hnewId, if_neg hold, h]

theorem getD_insert_empty (oldId newId id : MsgId) :
    ((∅ : Std.ExtTreeMap MsgId MsgId).insert oldId newId).getD id id =
      if id = oldId then newId else id := by
  simp only [Std.ExtTreeMap.getD_insert, Std.ExtTreeMap.getD_empty,
    Std.LawfulEqCmp.compare_eq_iff_eq, eq_comm (b := id)]

/-- One request has got an unused id, first in itself, then in all places. -/
theorem follows_of_one {oldId newId : MsgId} {refs : List Ref} {s₁ s₂ s₃ : Session}
    (hs : s.Consistent) (hfree : s.msgIdInUse newId = false) (hreq : (oldId, req) ∈ s.requestEntries)
    (h₁ : s₁ = s.modifyRequest req (·.setMsgId newId)) (h₂ : Numbered refs s₁ s₂)
    (hrefs : ∀ ref ∈ refs, (s.heap ref).isSentContainer = false)
    (h₃ : ContainersMapped (fun id => if id = oldId then newId else id)
      ((s₂.replaceKeys (oldId, newId)).haveSent.toList.map Prod.snd)
      (s₂.replaceKeys (oldId, newId)) s₃) :
    s.Follows (fun id => if id = oldId then newId else id) s₃ := by
  obtain ⟨hresendFree, hackedFree, hsentFree⟩ := not_inUse hfree
  obtain ⟨hid, hrequest, -⟩ := hs.request hreq
  have hcont := hrequest.not_container
  have hat : s.requestAt oldId = some req := by
    obtain ⟨h | ⟨requestId, h, h'⟩, -⟩ := mem_requestEntries.mp hreq
    · exact requestAt_sent h
    · exact hs.requestAt_resend h h'
  have hused : ∀ a : MsgId, a ∈ s.haveSent ∨ a ∈ s.toResend → a ≠ newId := by
    rintro a (ha | ha) rfl
    · rw [Std.ExtTreeMap.mem_iff_isSome_getElem?, hsentFree] at ha
      cases ha
    · rw [Std.ExtTreeMap.mem_iff_isSome_getElem?, hresendFree] at ha
      cases ha
  have hne : oldId ≠ newId := by
    rintro rfl
    rw [requestAt, hsentFree, hresendFree] at hat
    cases hat
  have hsent : s₃.haveSent = rekey s.haveSent (oldId, newId) := by
    rw [h₃.haveSent, replaceKeys, h₂.haveSent, h₁, modifyRequest]
  have hresend : s₃.toResend = rekey s.toResend (oldId, newId) := by
    rw [h₃.toResend, replaceKeys, h₂.toResend, h₁, modifyRequest]
  have hacked : s₃.wereAcked = rekey s.wereAcked (oldId, newId) := by
    rw [h₃.wereAcked, replaceKeys, h₂.wereAcked, h₁, modifyRequest]
  have hheap : ∀ ref ≠ req, s₁.heap ref = s.heap ref := by
    intro ref href
    rw [h₁, modifyRequest_heap, if_neg href]
  have hcontainer : ∀ ref, (s.heap ref).isSentContainer →
      s₁.heap ref = s.heap ref ∧ s₂.heap ref = s.heap ref := by
    intro ref hc
    have href : ref ≠ req := by
      rintro rfl
      rw [hc] at hcont
      cases hcont
    have hnot : ref ∉ refs := fun hin => by
      rw [hrefs ref hin] at hc
      cases hc
    exact ⟨hheap ref href, (h₂.other ref hnot).trans (hheap ref href)⟩
  refine ⟨fun a b ha hb hab => ?_, fun id hnone => ?_, fun id req' => ?_, fun id requestId => ?_,
    ?_, fun id requestId h => ?_, fun id req' h => ?_, fun id req' h hc => ?_,
    fun id req' h hc => ?_⟩
  · split at hab <;> split at hab
    · next h h' => rw [h, h']
    · exact absurd hab.symm (hused b hb)
    · exact absurd hab (hused a ha)
    · exact hab
  · refine if_neg ?_
    rintro rfl
    rw [hat] at hnone
    cases hnone
  · rw [hsent]
    exact rekey_iff hne hsentFree id req'
  · rw [hresend]
    exact rekey_iff hne hresendFree id requestId
  · rw [h₃.toSend, replaceKeys, h₂.toSend, h₁, modifyRequest]
  · rw [hacked]
    exact (rekey_iff hne hackedFree _ requestId).mpr ⟨id, rfl, h⟩
  · rw [h₃.msgId, replaceKeys, h₂.msgId]
    by_cases hold : id = oldId
    · rw [hold, hat] at h
      cases h
      rw [if_pos hold, h₁, modifyRequest_heap, if_pos rfl,
        SecureRequestData.msgId_setMsgId hrequest.1]
    · have hmsgId := (hs.requestAt_msgId h).1
      have href : req' ≠ req := by
        rintro rfl
        exact hold (hmsgId.symm.trans hid)
      rw [if_neg hold, hheap req' href, hmsgId]
  · have hin : req' ∈ (s₂.replaceKeys (oldId, newId)).haveSent.toList.map Prod.snd := by
      rw [Std.ExtTreeMap.mem_map_snd_toList, ← h₃.haveSent, hsent]
      exact ⟨_, (rekey_iff hne hsentFree _ req').mpr ⟨id, rfl, h⟩⟩
    have hsame := (hcontainer req' hc).2
    rw [h₃.sentIds req' hin (by rw [replaceKeys, hsame, hc]), replaceKeys, hsame]
  · have hrequest' := hs.requestAt_request h hc
    have hbody : (s₁.heap req').body = (s.heap req').body ∧ (s₁.heap req').IsRequest := by
      by_cases href : req' = req
      · rw [href, h₁, modifyRequest_heap, if_pos rfl]
        exact ⟨SecureRequestData.body_setMsgId hrequest.1 newId, hrequest.setMsgId newId⟩
      · rw [hheap req' href]
        exact ⟨rfl, hrequest'⟩
    have hkept : s₃.heap req' = s₂.heap req' := by
      rw [h₃.other req' (h₂.request req' hbody.2).not_container, replaceKeys]
    rw [hkept, h₂.body, hbody.1]

/-! ### The reset -/

theorem Numbered.of_base {refs : List Ref} {s₁ s₂ : Session} {n : Nat} {session : UInt64}
    (h : Numbered refs ({ s₁ with drawn := n }.setSession session) s₂) : Numbered refs s₁ s₂ := by
  obtain ⟨sent, hset⟩ := setSession_eq { s₁ with drawn := n } session
  rw [hset] at h
  exact ⟨h.haveSent, h.toResend, h.toSend, h.wereAcked, h.msgId, h.body, h.request, h.other⟩

theorem finishReset_none {n : Nat} {newId : MsgId} {m : Std.ExtTreeMap MsgId Ref}
    (hs : s.Consistent) (session : UInt64) :
    s.KeepsIds (finishReset { s := { s with drawn := n }, newId, setSeqNumbers := m } session) := by
  rw [finishReset, if_pos Std.ExtTreeMap.isEmpty_empty]
  have hnum := numbered_foldl (m.toList.map Prod.snd) ({ s with drawn := n }.setSession session)
  have h := follows_of_none hs hnum.of_base
  exact Follows.keepsIds ⟨h.injective, h.unnamed, h.haveSent, h.toResend, h.toSend, h.wereAcked,
    h.msgId, h.sentIds, h.body⟩ hs

theorem finishReset_one {n : Nat} {oldId newId : MsgId} {m : Std.ExtTreeMap MsgId Ref}
    (hs : s.Consistent) (hfree : s.msgIdInUse newId = false) (hreq : (oldId, req) ∈ s.requestEntries)
    (hm : ∀ (id : MsgId) (req : Ref), m[id]? = some req → (s.heap req).isSentContainer = false)
    (session : UInt64) :
    s.KeepsIds (finishReset
      { s := { s with drawn := n }.modifyRequest req (·.setMsgId newId)
        newId
        replaces := (∅ : Std.ExtTreeMap MsgId MsgId).insert oldId newId
        setSeqNumbers := m } session) := by
  have hempty : ((∅ : Std.ExtTreeMap MsgId MsgId).insert oldId newId).isEmpty = false := by
    rw [← Std.ExtTreeMap.isEmpty_toList, Std.ExtTreeMap.toList_insert_empty]
    rfl
  have hne : newId ≠ oldId := by
    rintro rfl
    obtain ⟨hresend, -, hsent⟩ := not_inUse hfree
    obtain ⟨h | ⟨requestId, h, -⟩, -⟩ := mem_requestEntries.mp hreq
    · rw [hsent] at h
      cases h
    · rw [hresend] at h
      cases h
  have hnum := numbered_foldl (m.toList.map Prod.snd)
    (({ s with drawn := n }.modifyRequest req (·.setMsgId newId)).setSession session)
  have hmap := fun refs s₂ => containersMapped_foldl
    ((∅ : Std.ExtTreeMap MsgId MsgId).insert oldId newId)
    (fun id => by
      simp only [getD_insert_empty]
      by_cases hold : id = oldId
      · rw [if_pos hold, if_neg hne]
      · rw [if_neg hold, if_neg hold]) refs s₂
  simp only [getD_insert_empty] at hmap
  have h := follows_of_one hs hfree hreq rfl (hnum.of_base (n := n)) (fun ref href => by
    obtain ⟨id, hid⟩ := Std.ExtTreeMap.mem_map_snd_toList.mp href
    exact hm id ref hid) (hmap _ _)
  rw [finishReset, hempty, if_neg Bool.false_ne_true, Std.ExtTreeMap.toList_insert_empty]
  exact Follows.keepsIds ⟨h.injective, h.unnamed, h.haveSent, h.toResend, h.toSend, h.wereAcked,
    h.msgId, h.sentIds, h.body⟩ hs

theorem foldl_replaceKeys_heap (replaced : List (MsgId × MsgId)) (s : Session) :
    (replaced.foldl replaceKeys s).heap = s.heap ∧
      (replaced.foldl replaceKeys s).toSend = s.toSend := by
  induction replaced generalizing s with
  | nil => exact ⟨rfl, rfl⟩
  | cons entry replaced ih => exact ih (s.replaceKeys entry)

theorem foldl_replaceInContainer_msgId (replaces : Std.ExtTreeMap MsgId MsgId) (refs : List Ref)
    (s : Session) (ref : Ref) :
    ((refs.foldl (replaceInContainer replaces) s).heap ref).msgId = (s.heap ref).msgId ∧
      (refs.foldl (replaceInContainer replaces) s).toSend = s.toSend := by
  induction refs generalizing s with
  | nil => exact ⟨rfl, rfl⟩
  | cons req refs ih =>
    have h := containersMapped_step replaces s req
    have h' := ih (s.replaceInContainer replaces req)
    exact ⟨h'.1.trans (h.msgId ref), h'.2.trans h.toSend⟩

theorem finishReset_msgId (r : Renumbering) (session : UInt64) (ref : Ref) :
    ((finishReset r session).heap ref).msgId = (r.s.heap ref).msgId ∧
      (finishReset r session).toSend = r.s.toSend := by
  have hnum := (numbered_foldl (r.setSeqNumbers.toList.map Prod.snd)
    ({ r.s with drawn := r.s.drawn }.setSession session)).of_base
  rw [finishReset]
  generalize (r.setSeqNumbers.toList.map Prod.snd).foldl generateSeqNumber
    (r.s.setSession session) = s₂ at hnum ⊢
  split
  · exact ⟨hnum.msgId ref, hnum.toSend⟩
  · have hkeys := foldl_replaceKeys_heap r.replaces.toList s₂
    generalize r.replaces.toList.foldl replaceKeys s₂ = s₃ at hkeys ⊢
    have hcont := foldl_replaceInContainer_msgId r.replaces (s₃.haveSent.toList.map Prod.snd) s₃ ref
    refine ⟨hcont.1.trans ?_, hcont.2.trans (hkeys.2.trans hnum.toSend)⟩
    rw [hkeys.1]
    exact hnum.msgId ref

theorem not_keepsIds_of_shared {a b newId : MsgId} {req req' : Ref}
    (ha : (a, req) ∈ s.requestEntries) (hb : (b, req') ∈ s.requestEntries) (hne : req ≠ req')
    (hreq : (s'.heap req).msgId = newId) (hreq' : (s'.heap req').msgId = newId) :
    ¬s.KeepsIds s' := by
  intro h
  have hfound : ∀ {id : MsgId} {req : Ref}, (id, req) ∈ s.requestEntries →
      s'.haveSent[(s'.heap req).msgId]? = some req ∨
        ∃ requestId, s'.toResend[(s'.heap req).msgId]? = some requestId ∧
          s.toSend[requestId]? = some req := by
    intro id req hin
    obtain ⟨hget | ⟨requestId, hget, hsend⟩, -⟩ := mem_requestEntries.mp hin
    · obtain ⟨id', hget', -⟩ := h.sent id req hget
      left
      rw [h.sent_id id' req hget', hget']
    · obtain ⟨hsend', id', hget', -⟩ := h.resend id requestId req hget hsend
      right
      exact ⟨requestId, by rw [h.resend_id id' requestId req hget' hsend', hget'], hsend⟩
  have hreqs := hfound ha
  have hreqs' := hfound hb
  rw [hreq] at hreqs
  rw [hreq'] at hreqs'
  rcases hreqs with hsent | ⟨requestId, hresend, hsend⟩ <;>
    rcases hreqs' with hsent' | ⟨requestId', hresend', hsend'⟩
  · rw [hsent] at hsent'
    exact hne (Option.some.inj hsent')
  · exact h.disjoint newId (Std.ExtTreeMap.mem_of_getElem?_eq_some hsent)
      (Std.ExtTreeMap.mem_of_getElem?_eq_some hresend')
  · exact h.disjoint newId (Std.ExtTreeMap.mem_of_getElem?_eq_some hsent')
      (Std.ExtTreeMap.mem_of_getElem?_eq_some hresend)
  · rw [hresend] at hresend'
    obtain rfl := Option.some.inj hresend'
    rw [hsend] at hsend'
    exact hne (Option.some.inj hsend')

/-- The ids stay apart exactly when no request after the first that needs a new id
is above the id this one gets. -/
theorem resetSession_keepsIds_iff (hs : s.Consistent) (hinc : s.Increasing clock)
    (session : UInt64) :
    s.KeepsIds (s.resetSession clock session) ↔
      ∀ entry ∈ (s.requestEntries.dropWhile fun entry => entry.1 ≤ clock s.drawn).tail,
        s.Reached clock entry.1 := by
  have hof : Renumbering.Of s { s := { s with drawn := s.drawn + 1 }, newId := clock s.drawn } :=
    ⟨fun _ => rfl, fun id req h => by simp at h, rfl, rfl, rfl, rfl⟩
  obtain ⟨m, hm⟩ : ∃ m, _ = _ := foldl_renumber_of_le clock
    { s := { s with drawn := s.drawn + 1 }, newId := clock s.drawn }
    (s.requestEntries.takeWhile fun entry => entry.1 ≤ clock s.drawn)
    (fun entry hin => by simpa using List.mem_takeWhile_imp hin)
  have hreset : s.resetSession clock session = finishReset
      ((s.requestEntries.dropWhile fun entry => entry.1 ≤ clock s.drawn).foldl (renumber clock)
        { s := { s with drawn := s.drawn + 1 }, newId := clock s.drawn, setSeqNumbers := m })
      session := by
    simp only [resetSession, msgid]
    rw [foldl_renumber_filter hof]
    change finishReset (s.requestEntries.foldl _ _) _ = _
    conv_lhs =>
      rw [← List.takeWhile_append_dropWhile (p := fun entry => entry.1 ≤ clock s.drawn)
        (l := s.requestEntries), List.foldl_append, hm]
  rw [hreset]
  cases hdrop : s.requestEntries.dropWhile fun entry => entry.1 ≤ clock s.drawn with
  | nil =>
    exact iff_of_true (finishReset_none hs session) fun entry h => absurd h List.not_mem_nil
  | cons first rest =>
    obtain ⟨oldId, req⟩ := first
    have hlt : clock s.drawn < oldId := by
      have h := List.head_dropWhile_not (fun entry : MsgId × Ref => entry.1 ≤ clock s.drawn)
        (l := s.requestEntries) (by rw [hdrop]; exact List.cons_ne_nil _ _)
      simp only [hdrop, List.head_cons, decide_eq_false_iff_not] at h
      exact UInt64.not_le.mp h
    have hsub : ((oldId, req) :: rest).Sublist s.requestEntries :=
      hdrop ▸ List.dropWhile_sublist _
    have hin : (oldId, req) ∈ s.requestEntries := hsub.subset List.mem_cons_self
    obtain ⟨hid, hrequest, hne⟩ := hs.request hin
    have hnodup := (hsub.map Prod.snd).nodup hs.nodup_refs
    rw [List.map_cons, List.nodup_cons] at hnodup
    obtain ⟨k, hk, hnew, hfree, hall⟩ := unusedMsgId_eq hinc (Nat.le_refl s.drawn)
    have hofm := hm ▸ hof.foldl clock
      (s.requestEntries.takeWhile fun entry => entry.1 ≤ clock s.drawn)
    have hfirst := renumber_of_lt
      (r := { s := { s with drawn := s.drawn + 1 }, newId := clock s.drawn, setSeqNumbers := m })
      hrequest (hid ▸ hne) hlt hnew
    rw [List.tail_cons, List.foldl_cons, hfirst]
    have hreach := fun entry : MsgId × Ref => reached_iff hinc hk hfree hall entry.1
    simp only [hreach]
    by_cases hle : ∀ entry ∈ rest, entry.1 ≤ clock k
    · refine iff_of_true ?_ hle
      obtain ⟨m', hm'⟩ : ∃ m, _ = _ := foldl_renumber_of_le clock
        { s := { s with drawn := k + 1 }.modifyRequest req (·.setMsgId (clock k))
          newId := clock k
          replaces := (∅ : Std.ExtTreeMap MsgId MsgId).insert oldId (clock k)
          setSeqNumbers := m.insert (clock k) req } rest hle
      have hofm' := (hofm.step clock (oldId, req)).foldl clock rest
      rw [hfirst, hm'] at hofm'
      rw [hm']
      exact finishReset_one hs hfree hin hofm'.numbered session
    · refine iff_of_false ?_ hle
      rw [not_forall] at hle
      obtain ⟨⟨id', req'⟩, hle⟩ := hle
      rw [Classical.not_imp, UInt64.not_le] at hle
      obtain ⟨hin', hlt'⟩ := hle
      have hother : ∀ ref ≠ req, ({ s with drawn := k + 1 }.modifyRequest req
          (·.setMsgId (clock k))).heap ref = s.heap ref := by
        intro ref href
        rw [modifyRequest_heap, if_neg href]
      obtain ⟨hset, hkeep⟩ := foldl_renumber_msgId
        { s := { s with drawn := k + 1 }.modifyRequest req (·.setMsgId (clock k))
          newId := clock k
          replaces := (∅ : Std.ExtTreeMap MsgId MsgId).insert oldId (clock k)
          setSeqNumbers := m.insert (clock k) req } rest hfree hnodup.2 (by
        intro entry hentry
        have hne' : entry.2 ≠ req := fun h => hnodup.1 (List.mem_map.mpr ⟨entry, hentry, h⟩)
        obtain ⟨hid', hrequest', hne''⟩ :=
          hs.request (hsub.subset (List.mem_cons_of_mem _ hentry))
        rw [hother _ hne']
        exact ⟨hrequest', hid' ▸ hne''⟩)
      refine not_keepsIds_of_shared hin (hsub.subset (List.mem_cons_of_mem _ hin'))
        (fun h => hnodup.1 (List.mem_map.mpr ⟨_, hin', h.symm⟩))
        ((finishReset_msgId _ session req).1.trans ?_)
        ((finishReset_msgId _ session req').1.trans (hset _ hin' hlt'))
      rw [hkeep req hnodup.1, modifyRequest_heap, if_pos rfl,
        SecureRequestData.msgId_setMsgId hrequest.1]

/-- Two requests sent with the ids 100 and 104. -/
def twoSent : Session where
  heap ref :=
    { words := [0, 0, 0, 0, if ref = 0 then 100 else 104, 0, 1, 4, 7]
      msDate := 1
      requestId := if ref = 0 then 1 else 2 }
  haveSent := ((∅ : Std.ExtTreeMap MsgId Ref).insert 100 0).insert 104 1

theorem twoSent_consistent : twoSent.Consistent where
  sent id req h := by
    rw [twoSent, Std.ExtTreeMap.getElem?_insert, Std.ExtTreeMap.getElem?_insert] at h
    simp only [Std.LawfulEqCmp.compare_eq_iff_eq] at h
    split at h
    · next hid =>
      obtain rfl := Option.some.inj h
      exact ⟨hid, .inr ⟨by decide, .inl (by decide)⟩⟩
    split at h
    · next hid =>
      obtain rfl := Option.some.inj h
      exact ⟨hid, .inr ⟨by decide, .inl (by decide)⟩⟩
    · simp at h
  resend id requestId req h := by simp [twoSent] at h
  disjoint id h := by simp [twoSent]
  sent_ne_zero := by decide
  resend_ne_zero := by decide

theorem twoSent_entries : twoSent.requestEntries = [(100, 0), (104, 1)] := by decide

theorem twoSent_inUse {id : MsgId} (h : twoSent.msgIdInUse id) : id = 100 ∨ id = 104 := by
  simp only [msgIdInUse, twoSent, Std.ExtTreeMap.contains_insert, Std.ExtTreeMap.contains_empty,
    Bool.or_eq_true, Bool.or_false, Bool.false_or, beq_iff_eq,
    Std.LawfulEqCmp.compare_eq_iff_eq] at h
  exact (h.imp Eq.symm Eq.symm).symm

/-- A clock that starts between the two ids. -/
theorem resetSession_keepsIds_twoSent :
    twoSent.KeepsIds (twoSent.resetSession (fun n => UInt64.ofNat (4 * n + 102)) 7) :=
  (resetSession_keepsIds_iff twoSent_consistent (fun n _ huse => by
      exfalso
      rcases twoSent_inUse huse with h | h <;>
      · have hnat := congrArg UInt64.toNat h
        rw [UInt64.toNat_ofNat'] at hnat
        simp at hnat
        omega) 7).mpr (by
    rw [twoSent_entries]
    exact fun entry h => absurd h List.not_mem_nil)

/-- A clock that starts below both. -/
theorem resetSession_loses_request :
    twoSent.Consistent ∧ twoSent.Increasing (fun n => UInt64.ofNat (4 * n + 4)) ∧
      ¬twoSent.KeepsIds (twoSent.resetSession (fun n => UInt64.ofNat (4 * n + 4)) 7) := by
  have hinc : twoSent.Increasing (fun n => UInt64.ofNat (4 * n + 4)) := by
    intro n _ huse
    rw [UInt64.lt_iff_toNat_lt, UInt64.toNat_ofNat', UInt64.toNat_ofNat']
    rcases twoSent_inUse huse with h | h <;>
    · have hnat := congrArg UInt64.toNat h
      rw [UInt64.toNat_ofNat'] at hnat
      simp at hnat
      omega
  refine ⟨twoSent_consistent, hinc, ?_⟩
  rw [resetSession_keepsIds_iff twoSent_consistent hinc, twoSent_entries]
  intro h
  have hreach := (reached_iff hinc (Nat.le_refl 0) (by decide)
    (fun m _ hm => absurd hm (Nat.not_lt_zero m)) 104).mp (h (104, 1) (by decide))
  exact absurd hreach (by decide)

end TelegramClient.Mtproto.Session
