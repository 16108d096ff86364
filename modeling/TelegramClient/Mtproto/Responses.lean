import Mathlib
import TelegramClient.Mtproto.ReceivedMsgIds
import TelegramClient.Mtproto.Session

/-! The bookkeeping of sent requests when a response or an ack comes. Acked ids
are remembered up to a number, and the smallest ids are forgotten first. -/

namespace TelegramClient.Mtproto

def mtpc_gzip_packed : UInt32 := 0x3072cfa1

def mtpc_rpc_error : UInt32 := 0x2144ca19

namespace Session

section

variable (hasCallbacks : RequestId → Bool)

/-- One id acked, and the ids that are acked with it when it was a container. -/
def ackId (byResponse : Bool) (s : Session) (msgId : MsgId) : Session × List MsgId :=
  match s.haveSent[msgId]? with
  | some req =>
    if (s.heap req).msDate = 0 then
      ({ s with haveSent := s.haveSent.erase msgId }, (s.heap req).sentIds)
    else if byResponse || !hasCallbacks (s.heap req).requestId then
      ({ s with
        wereAcked := s.wereAcked.insert msgId (s.heap req).requestId
        haveSent := s.haveSent.erase msgId }, [])
    else (s, [])
  | none =>
    match s.toResend[msgId]? with
    | none => (s, [])
    | some reqId =>
      if byResponse || !hasCallbacks reqId then
        let s' := { s with toResend := s.toResend.erase msgId }
        match s.toSend[reqId]? with
        | none => (s', [])
        | some req =>
          ({ s' with
            wereAcked := s.wereAcked.insert msgId (s.heap req).requestId
            toSend := s.toSend.erase reqId }, [])
      else (s, [])

def ackIds (byResponse : Bool) (s : Session) : List MsgId → Session × List MsgId
  | [] => (s, [])
  | msgId :: ids =>
    let (s, more) := ackId hasCallbacks byResponse s msgId
    let (s, rest) := ackIds byResponse s ids
    (s, more ++ rest)

/-- The requests of the ids that are dropped fail with a timeout. -/
def trimWereAcked (s : Session) : Session :=
  let excess := s.wereAcked.size - kIdsBufferSize
  { s with
    wereAcked := s.wereAcked.dropMin excess
    timedOut := s.timedOut ++ s.wereAcked.takeMin excess }

theorem haveSent_trimWereAcked (s : Session) : s.trimWereAcked.haveSent = s.haveSent := by
  rw [trimWereAcked]

theorem timedOut_trimWereAcked (s : Session) : s.trimWereAcked.timedOut =
    s.timedOut ++ s.wereAcked.takeMin (s.wereAcked.size - kIdsBufferSize) := by
  rw [trimWereAcked]

theorem wereAcked_trimWereAcked (s : Session) : s.trimWereAcked.wereAcked =
    s.wereAcked.dropMin (s.wereAcked.size - kIdsBufferSize) := by
  rw [trimWereAcked]

theorem size_ackId (byResponse : Bool) (s : Session) (msgId : MsgId) :
    (ackId hasCallbacks byResponse s msgId).1.haveSent.size ≤ s.haveSent.size ∧
      ((ackId hasCallbacks byResponse s msgId).2 ≠ [] →
        (ackId hasCallbacks byResponse s msgId).1.haveSent.size < s.haveSent.size) := by
  rw [ackId]
  cases hreq : s.haveSent[msgId]? with
  | some req =>
    have hin : s.haveSent.contains msgId := by
      rw [Std.ExtTreeMap.contains_eq_isSome_getElem?, hreq, Option.isSome_some]
    have hpos : 0 < s.haveSent.size := by
      have hlt := Std.ExtTreeMap.countAbove_lt_size (t := s.haveSent) hin
      omega
    have hsize : (s.haveSent.erase msgId).size = s.haveSent.size - 1 := by
      rw [Std.ExtTreeMap.size_erase, if_pos hin]
    dsimp only
    split
    · exact ⟨by dsimp only; omega, fun _ => by dsimp only; omega⟩
    split
    · exact ⟨by dsimp only; omega, fun h => absurd rfl h⟩
    · exact ⟨Nat.le_refl _, fun h => absurd rfl h⟩
  | none =>
    dsimp only
    split
    · exact ⟨Nat.le_refl _, fun h => absurd rfl h⟩
    split
    · split
      · exact ⟨Nat.le_refl _, fun h => absurd rfl h⟩
      · exact ⟨Nat.le_refl _, fun h => absurd rfl h⟩
    · exact ⟨Nat.le_refl _, fun h => absurd rfl h⟩

theorem size_ackIds (byResponse : Bool) (ids : List MsgId) (s : Session) :
    (ackIds hasCallbacks byResponse s ids).1.haveSent.size ≤ s.haveSent.size ∧
      ((ackIds hasCallbacks byResponse s ids).2 ≠ [] →
        (ackIds hasCallbacks byResponse s ids).1.haveSent.size < s.haveSent.size) := by
  induction ids generalizing s with
  | nil => exact ⟨Nat.le_refl _, fun h => absurd rfl h⟩
  | cons msgId ids ih =>
    have hid := size_ackId hasCallbacks byResponse s msgId
    have hids := ih (ackId hasCallbacks byResponse s msgId).1
    refine ⟨Nat.le_trans hids.1 hid.1, fun h => ?_⟩
    by_cases hmore : (ackId hasCallbacks byResponse s msgId).2 = []
    · have hrest : (ackIds hasCallbacks byResponse (ackId hasCallbacks byResponse s msgId).1
          ids).2 ≠ [] := fun hr => h (by simp only [ackIds, hmore, hr, List.append_nil])
      exact Nat.lt_of_lt_of_le (hids.2 hrest) hid.1
    · exact Nat.lt_of_le_of_lt hids.1 (hid.2 hmore)

/-- The ids of an acked container are acked in a call of their own. -/
def requestsAcked (s : Session) (ids : List MsgId) (byResponse : Bool) : Session :=
  let acked := ackIds hasCallbacks byResponse s ids
  if _h : acked.2 = [] then acked.1.trimWereAcked
  else requestsAcked acked.1.trimWereAcked acked.2 false
termination_by s.haveSent.size
decreasing_by
  rw [haveSent_trimWereAcked]
  exact (size_ackIds hasCallbacks byResponse ids s).2 _h

end

inductive HandleResult where
  | success
  | ignored
  | restartConnection
  | resetSession
  deriving DecidableEq, Repr

def requestsFixTimeSalt (s : Session) (ids : List MsgId) (serverSalt : UInt64) : Bool × Session :=
  if ids.any fun msgId => s.wasSent msgId ≠ 0 then
    (true, if serverSalt ≠ 0 then { s with salt := serverSalt } else s)
  else (false, s)

section

variable (hasCallbacks : RequestId → Bool) (ungzip : List UInt32 → List UInt32)

/-- The words of a response, none when they could not be unpacked. -/
def unpackResponse (typeId : UInt32) (words : List UInt32) : Option (List UInt32) :=
  if typeId = mtpc_gzip_packed then
    if ungzip words = [] then none else some (ungzip words)
  else some (typeId :: words)

def queueResponse (s : Session) (reqMsgId : MsgId) (response : List UInt32) : Session :=
  let s := if response.headD 0 ≠ mtpc_rpc_error then { s with inited := true } else s
  let requestId := s.wasSent reqMsgId
  if requestId ≠ 0 ∧ requestId ≠ -1 then
    { s with receivedResponses := s.receivedResponses.insert requestId response }
  else s

/-- A `rpc_result` of which the id was read and the type of the response. -/
def handleRpcResult (s : Session) (reqMsgId : MsgId) (typeId : UInt32) (words : List UInt32)
    (serverSalt : UInt64) (badTime : Bool) : HandleResult × Session :=
  let (known, s) := if badTime then s.requestsFixTimeSalt [reqMsgId] serverSalt else (true, s)
  if known = false then (.ignored, s)
  else
    let s := s.requestsAcked hasCallbacks [reqMsgId] true
    match unpackResponse ungzip typeId words with
    | none => (.restartConnection, s)
    | some response => (.success, s.queueResponse reqMsgId response)

end

/-! ### A response to a request -/

variable {s s' : Session} {msgId : MsgId} {req : Ref}

/-- The request of an id is waiting for its response. -/
structure Awaits (s : Session) (msgId : MsgId) (req : Ref) : Prop where
  found : (s.haveSent[msgId]? = some req ∧ (s.heap req).msDate ≠ 0 ∧ s.toResend[msgId]? = none) ∨
    (s.haveSent[msgId]? = none ∧ s.toResend[msgId]? = some (s.heap req).requestId ∧
      s.toSend[(s.heap req).requestId]? = some req)
  requestId_ne_zero : (s.heap req).requestId ≠ 0
  requestId_ne : (s.heap req).requestId ≠ -1
  not_ping : msgId ≠ s.pingMsgId

/-- What acking the id of a request changes. -/
structure Acked (s s' : Session) (msgId : MsgId) (requestId : RequestId) : Prop where
  wereAcked : s'.wereAcked = s.wereAcked.insert msgId requestId
  haveSent : s'.haveSent[msgId]? = none
  toResend : s'.toResend[msgId]? = none
  pingMsgId : s'.pingMsgId = s.pingMsgId
  timedOut : s'.timedOut = s.timedOut

/-- The response is queued under its request, which has not failed meanwhile. -/
structure Delivered (s s' : Session) (msgId : MsgId) (requestId : RequestId)
    (response : List UInt32) : Prop where
  wasSent : s'.wasSent msgId = requestId
  queued : s'.receivedResponses[requestId]? = some response
  not_timedOut : ∃ dropped, s'.timedOut = s.timedOut ++ dropped ∧ requestId ∉ dropped

theorem Awaits.wasSent (h : s.Awaits msgId req) : s.wasSent msgId = (s.heap req).requestId := by
  rw [Session.wasSent, if_neg h.not_ping]
  rcases h.found with ⟨hsent, -, -⟩ | ⟨hsent, hresend, -⟩
  · simp only [hsent, if_pos h.requestId_ne_zero]
  · simp only [hsent, hresend, Option.getD_some]

theorem Awaits.ackId (h : s.Awaits msgId req) (hasCallbacks : RequestId → Bool) :
    ∃ s', Session.ackId hasCallbacks true s msgId = (s', []) ∧
      s.Acked s' msgId (s.heap req).requestId := by
  rcases h.found with ⟨hsent, hdate, hresend⟩ | ⟨hsent, hresend, hsend⟩
  · refine ⟨{ s with
        wereAcked := s.wereAcked.insert msgId (s.heap req).requestId
        haveSent := s.haveSent.erase msgId }, ?_, rfl, ?_, hresend, rfl, rfl⟩
    · simp only [Session.ackId, hsent, if_neg hdate, Bool.true_or, if_true]
    · simp
  · refine ⟨{ s with
        wereAcked := s.wereAcked.insert msgId (s.heap req).requestId
        toSend := s.toSend.erase (s.heap req).requestId
        toResend := s.toResend.erase msgId }, ?_, rfl, hsent, ?_, rfl, rfl⟩
    · simp only [Session.ackId, hsent, hresend, Bool.true_or, if_true, hsend]
    · simp

theorem requestsAcked_of_acked (hasCallbacks : RequestId → Bool)
    (h : Session.ackId hasCallbacks true s msgId = (s', [])) :
    s.requestsAcked hasCallbacks [msgId] true = s'.trimWereAcked := by
  have hids : ackIds hasCallbacks true s [msgId] = (s', []) := by
    simp only [ackIds, h, List.append_nil]
  rw [requestsAcked, hids]
  exact dif_pos rfl

theorem Acked.wasSent_trimWereAcked {requestId : RequestId} (h : s.Acked s' msgId requestId)
    (hping : msgId ≠ s.pingMsgId) :
    s'.trimWereAcked.wasSent msgId =
      if msgId ∈ s'.trimWereAcked.wereAcked then requestId else 0 := by
  have hget : s'.wereAcked[msgId]? = some requestId := by simp [h.wereAcked]
  rw [wasSent, trimWereAcked, if_neg (by rw [h.pingMsgId]; exact hping)]
  simp only [h.haveSent, h.toResend, Option.getD_none]
  split
  · next hin => rw [Std.ExtTreeMap.getElem?_dropMin hin, hget, Option.getD_some]
  · next hout => rw [Std.ExtTreeMap.getElem?_eq_none hout, Option.getD_none]

/-- A request is not dropped when few ids are above each id it was acked under. -/
theorem not_dropped_iff (s : Session) (requestId : RequestId) :
    requestId ∉ s.wereAcked.takeMin (s.wereAcked.size - kIdsBufferSize) ↔
      ∀ k, s.wereAcked[k]? = some requestId → s.wereAcked.countAbove k < kIdsBufferSize := by
  rw [Std.ExtTreeMap.mem_takeMin, not_exists]
  refine forall_congr' fun k => ?_
  rw [not_and, not_not]
  refine imp_congr_right fun hk => ?_
  have hmem : k ∈ s.wereAcked := Std.ExtTreeMap.mem_iff_isSome_getElem?.mpr (by simp [hk])
  have hlt := Std.ExtTreeMap.countAbove_lt_size hmem
  rw [Std.ExtTreeMap.mem_dropMin_iff hmem]
  omega

theorem Awaits.with_salt (h : s.Awaits msgId req) (salt : UInt64) :
    { s with salt }.Awaits msgId req :=
  ⟨h.found, h.requestId_ne_zero, h.requestId_ne, h.not_ping⟩

theorem Awaits.requestsFixTimeSalt (h : s.Awaits msgId req) (serverSalt : UInt64) :
    ∃ salt, s.requestsFixTimeSalt [msgId] serverSalt = (true, { s with salt }) := by
  have hsent : s.wasSent msgId ≠ 0 := by
    rw [h.wasSent]
    exact h.requestId_ne_zero
  rw [Session.requestsFixTimeSalt, if_pos (by simpa using hsent)]
  split
  · exact ⟨_, rfl⟩
  · exact ⟨s.salt, rfl⟩

theorem queueResponse_wasSent (response : List UInt32) :
    (s.queueResponse msgId response).wasSent msgId = s.wasSent msgId := by
  simp only [queueResponse]
  split <;> split <;> rfl

theorem queueResponse_timedOut (response : List UInt32) :
    (s.queueResponse msgId response).timedOut = s.timedOut := by
  simp only [queueResponse]
  split <;> split <;> rfl

theorem queueResponse_queued {requestId : RequestId} (h : s.wasSent msgId = requestId)
    (hzero : requestId ≠ 0) (hne : requestId ≠ -1) (response : List UInt32) :
    (s.queueResponse msgId response).receivedResponses[requestId]? = some response := by
  have hinited : ∀ inited, { s with inited }.wasSent msgId = requestId := fun inited => h
  rw [queueResponse]
  split <;> simp only [hinited, hzero, hne, ne_eq, not_false_eq_true, and_self, if_true,
    Std.ExtTreeMap.getElem?_insert_self]

section

variable {hasCallbacks : RequestId → Bool} {ungzip : List UInt32 → List UInt32}
  {typeId : UInt32} {words response : List UInt32}

/-- The request stays known and gets its response exactly when fewer ids than the
buffer holds are above each id it was acked under. -/
theorem response_delivered_iff (h : s.Awaits msgId req)
    (hresponse : unpackResponse ungzip typeId words = some response) (serverSalt : UInt64)
    (badTime : Bool) :
    (∃ s', s.handleRpcResult hasCallbacks ungzip msgId typeId words serverSalt badTime =
        (.success, s') ∧ s.Delivered s' msgId (s.heap req).requestId response) ↔
      ∀ k, (s.wereAcked.insert msgId (s.heap req).requestId)[k]? = some (s.heap req).requestId →
        (s.wereAcked.insert msgId (s.heap req).requestId).countAbove k < kIdsBufferSize := by
  obtain ⟨salt, hfix⟩ : ∃ salt, (if badTime then s.requestsFixTimeSalt [msgId] serverSalt
      else (true, s)) = (true, { s with salt }) := by
    cases badTime with
    | false => exact ⟨s.salt, rfl⟩
    | true => exact h.requestsFixTimeSalt serverSalt
  obtain ⟨s', hack, hacked⟩ := (h.with_salt salt).ackId hasCallbacks
  have hhandle : s.handleRpcResult hasCallbacks ungzip msgId typeId words serverSalt badTime =
      (.success, s'.trimWereAcked.queueResponse msgId response) := by
    rw [handleRpcResult, hfix]
    simp only [Bool.true_eq_false, if_false, requestsAcked_of_acked hasCallbacks hack, hresponse]
  have hsent := hacked.wasSent_trimWereAcked h.not_ping
  have htimed : (s'.trimWereAcked.queueResponse msgId response).timedOut =
      s.timedOut ++ s'.wereAcked.takeMin (s'.wereAcked.size - kIdsBufferSize) := by
    rw [queueResponse_timedOut, timedOut_trimWereAcked, hacked.timedOut]
  have hiff := s'.not_dropped_iff (s.heap req).requestId
  rw [hacked.wereAcked] at hiff
  rw [hhandle, ← hiff, ← hacked.wereAcked]
  constructor
  · rintro ⟨s'', heq, hd⟩
    obtain rfl := (Prod.mk.inj heq).2
    obtain ⟨dropped, heq', hdropped⟩ := hd.not_timedOut
    rwa [List.append_cancel_left (htimed.symm.trans heq')]
  · intro hdropped
    have hin : msgId ∈ s'.trimWereAcked.wereAcked := by
      by_contra hout
      rw [wereAcked_trimWereAcked] at hout
      exact hdropped (Std.ExtTreeMap.mem_takeMin.mpr ⟨msgId, by simp [hacked.wereAcked], hout⟩)
    rw [if_pos hin] at hsent
    refine ⟨_, rfl, by rw [queueResponse_wasSent, hsent], ?_, _, htimed, hdropped⟩
    exact queueResponse_queued hsent h.requestId_ne_zero h.requestId_ne response

end

/-- One request waits, sent before all the requests of `acked`. -/
def waitingFirst (acked : List (MsgId × RequestId)) : Session where
  heap _ := { msDate := 1, requestId := 1 }
  haveSent := (∅ : Std.ExtTreeMap MsgId Ref).insert 4 0
  wereAcked := Std.ExtTreeMap.ofList acked

theorem waitingFirst_awaits (acked : List (MsgId × RequestId)) :
    (waitingFirst acked).Awaits 4 0 where
  found := .inl ⟨by simp [waitingFirst], by simp [waitingFirst], by simp [waitingFirst]⟩
  requestId_ne_zero := by simp [waitingFirst]
  requestId_ne := by simp [waitingFirst]
  not_ping := by simp [waitingFirst]

theorem response_delivered_iff_alone :
    ∃ s', (waitingFirst []).handleRpcResult (fun _ => true) id 4 7 [] 0 false = (.success, s') ∧
      (waitingFirst []).Delivered s' 4 1 [7] :=
  (response_delivered_iff (waitingFirst_awaits []) (by rfl) 0 false).mpr fun k hk => by
    have hmem := Std.ExtTreeMap.mem_iff_isSome_getElem?.mpr (Option.isSome_of_eq_some hk)
    refine Nat.lt_of_lt_of_le (Std.ExtTreeMap.countAbove_lt_size hmem) ?_
    refine Nat.le_trans Std.ExtTreeMap.size_insert_le ?_
    simp [waitingFirst, kIdsBufferSize]

/-- The ids of 400 requests sent later. -/
def laterAcked : List (MsgId × RequestId) :=
  (List.range 400).map fun i => (UInt64.ofNat (4 * i + 8), Int32.ofNat (i + 2))

theorem laterAcked_pairwise : laterAcked.Pairwise fun a b => a.1 < b.1 := by
  refine List.pairwise_map.mpr ((List.pairwise_lt_range).imp_of_mem fun {i j} _ hj hlt => ?_)
  rw [List.mem_range] at hj
  rw [UInt64.lt_iff_toNat_lt, UInt64.toNat_ofNat', UInt64.toNat_ofNat']
  omega

theorem lt_of_mem_laterAcked {p : MsgId × RequestId} (h : p ∈ laterAcked) : 4 < p.1 := by
  obtain ⟨i, hi, rfl⟩ := List.mem_map.mp h
  rw [List.mem_range] at hi
  rw [UInt64.lt_iff_toNat_lt, UInt64.toNat_ofNat']
  change 4 < _
  omega

theorem response_lost_among_later :
    (waitingFirst laterAcked).Awaits 4 0 ∧
      ¬∃ s', (waitingFirst laterAcked).handleRpcResult (fun _ => true) id 4 7 [] 0 false =
          (.success, s') ∧ (waitingFirst laterAcked).Delivered s' 4 1 [7] := by
  refine ⟨waitingFirst_awaits _, fun hd => ?_⟩
  have hlt := (response_delivered_iff (waitingFirst_awaits laterAcked) (by rfl) 0 false).mp hd 4
    (by simp [waitingFirst])
  have hall : ∀ l : MsgId, l ∈ Std.ExtTreeMap.ofList laterAcked → 4 < l := by
    intro l hl
    rw [Std.ExtTreeMap.mem_ofList, List.contains_iff_mem, List.mem_map] at hl
    obtain ⟨p, hp, rfl⟩ := hl
    exact lt_of_mem_laterAcked hp
  have hsize : (Std.ExtTreeMap.ofList laterAcked).size = 400 := by
    rw [Std.ExtTreeMap.size_ofList, laterAcked, List.length_map, List.length_range]
    refine laterAcked_pairwise.imp fun hlt heq => ?_
    rw [Std.LawfulEqCmp.compare_eq_iff_eq] at heq
    exact absurd (heq ▸ hlt) (UInt64.lt_irrefl _)
  have hout : (4 : MsgId) ∉ Std.ExtTreeMap.ofList laterAcked :=
    fun hin => absurd (hall 4 hin) (UInt64.lt_irrefl _)
  rw [Std.ExtTreeMap.countAbove_insert_self] at hlt
  simp only [waitingFirst] at hlt
  rw [Std.ExtTreeMap.erase_of_getElem?_eq_none (Std.ExtTreeMap.getElem?_eq_none hout),
    Std.ExtTreeMap.countAbove_eq_size fun l hl => Std.compare_eq_lt.mpr (hall l hl), hsize] at hlt
  exact absurd hlt (Nat.lt_irrefl _)

end Session

end TelegramClient.Mtproto
