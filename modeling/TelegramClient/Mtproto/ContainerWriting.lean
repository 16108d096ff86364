import Mathlib
import TelegramClient.Mtproto.ContainerIds
import TelegramClient.Mtproto.ContainerWords

/-! The building of a container as a run of placements, each of which writes one
message. -/

namespace TelegramClient.Mtproto

/-- A request in its place in the container: the words put in front of it, how many
of them the length of the container grows by, and the map that keeps it. -/
structure Placed where
  req : Ref
  message : Message
  wrap : List UInt32 := []
  grown : Nat := 0
  recorded : Bool := false
  acked : Bool := false

namespace SecureRequestData

variable {r : SecureRequestData} (h : kMessageBodyPosition < r.size) (msgId : MsgId)
  (seqNo : UInt32)

include h

theorem getElem?_identify {k : Nat} (hk : kMessageLengthPosition ≤ k) :
    (r.identify msgId seqNo).words[k]? = r.words[k]? := by
  rw [kMessageLengthPosition] at hk
  rw [identify, getElem?_setSeqNo (by rw [kSeqNoPosition]; omega), getElem?_setMsgId h,
    if_neg (by omega)]

theorem size_identify : (r.identify msgId seqNo).size = r.size := by
  rw [identify, size_setSeqNo, size_setMsgId h]

theorem msgId_identify : (r.identify msgId seqNo).msgId = msgId := by
  rw [identify, msgId_setSeqNo, msgId_setMsgId h]

theorem body_identify : (r.identify msgId seqNo).body = r.body := by
  rw [identify, body_setSeqNo, body_setMsgId h]

theorem innerLength_identify : (r.identify msgId seqNo).innerLength = r.innerLength := by
  rw [innerLength, innerLength, size_identify h, List.getD_eq_getElem?_getD,
    List.getD_eq_getElem?_getD, getElem?_identify h _ _ (Nat.le_refl _)]

theorem lenInInts_identify : (r.identify msgId seqNo).lenInInts = r.lenInInts := by
  rw [lenInInts, lenInInts, innerLength_identify h]

theorem inner_identify : (r.identify msgId seqNo).inner = r.inner := by
  rw [inner, inner, body_identify h, lenInInts_identify h]

theorem needAck_identify : (r.identify msgId seqNo).needAck = r.needAck := by
  rw [needAck, needAck, size_identify h, typeId, typeId, List.getD_eq_getElem?_getD,
    List.getD_eq_getElem?_getD, getElem?_identify h _ _ (by decide)]

end SecureRequestData

theorem SecureRequestData.Serialized.identify {r : SecureRequestData} (h : r.Serialized)
    (msgId : MsgId) (seqNo : UInt32) : (r.identify msgId seqNo).Serialized := by
  refine ⟨?_, ?_, ?_⟩
  · rw [innerLength_identify h.size, lenInInts_identify h.size]
    exact h.length
  · rw [lenInInts_identify h.size]
    exact h.pos
  · rw [lenInInts_identify h.size, size_identify h.size]
    exact h.le

namespace Session

section

variable (options : SendOptions) (clock : Nat → MsgId)

/-- A request of the application with its id, as it is placed. -/
def Building.requestPlaced (b : Building) (req : Ref) : Placed :=
  let r := b.s.heap req
  let recorded := r.requestId != 0 && r.needAck
  let after := if recorded then b.s.afterWords r else []
  let wrap := if recorded then b.s.layerWords options r ++ after else []
  { req
    message := r.wrapped wrap
    wrap
    grown := after.length
    recorded
    acked := r.requestId != 0 && !r.needAck }

/-- A request of the session itself with its id, as it is placed. -/
def Building.ownPlaced (b : Building) (recorded : Bool) (req : Ref) : Placed where
  req
  message := (b.s.heap req).wrapped []
  recorded

def requestsPlaced (b : Building) : List Ref → List Placed
  | [] => []
  | req :: reqs => (b.assign clock req).2.requestPlaced options req ::
      requestsPlaced (b.placeRequest options clock req) reqs

def Building.extraPlaced (b : Building) (recorded : Bool) (req : Option Ref) : List Placed :=
  (req.map fun req => (b.assign clock req).2.ownPlaced recorded req).toList

/-- What is placed in the container, in the order of its messages. -/
def containerPlaced (s : Session) (e : Extras) : List Placed :=
  let b₁ := s.beginContainer options clock e
  let b₂ := b₁.placePing clock e.ping
  let b₃ := s.toSendRefs.foldl (Building.placeRequest options clock) b₂
  let b₄ := b₃.placeState clock e.state
  let b₅ := b₄.place clock e.resend
  let b₆ := b₅.place clock e.ack
  b₁.extraPlaced clock false e.ping ++ requestsPlaced options clock b₂ s.toSendRefs ++
    b₃.extraPlaced clock true e.state ++ b₄.extraPlaced clock false e.resend ++
    b₅.extraPlaced clock false e.ack ++ b₆.extraPlaced clock false e.httpWait

end

/-! ### One placement -/

/-- What is written for a request that has its id. -/
structure Written (b b' : Building) (p : Placed) : Prop where
  bigMsgId : b'.bigMsgId = b.bigMsgId
  haveSentArr : b'.haveSentArr = b.haveSentArr
  drawn : b'.s.drawn = b.s.drawn
  heap : ∃ date, b'.s.heap =
    Function.update b.s.heap p.req { b.s.heap p.req with msDate := date }
  toSend : b'.s.toSend = b.s.toSend
  inited : b'.s.inited = b.s.inited
  toResend : b'.s.toResend = b.s.toResend
  haveSent : b'.s.haveSent =
    if p.recorded then b.s.haveSent.insert p.message.msgId p.req else b.s.haveSent
  wereAcked : b'.s.wereAcked =
    if p.acked then b.s.wereAcked.insert p.message.msgId (b.s.heap p.req).requestId
    else b.s.wereAcked
  message : p.message = (b.s.heap p.req).wrapped p.wrap
  words : b'.words = addAt b.words kMessageLengthPosition (4 * p.grown) ++ p.message.encode

variable {options : SendOptions} {clock : Nat → MsgId} {b b' : Building} {req : Ref}

theorem exists_date_self (s : Session) (req : Ref) :
    ∃ date, s.heap = Function.update s.heap req { s.heap req with msDate := date } :=
  ⟨(s.heap req).msDate, (Function.update_eq_self req s.heap).symm⟩

theorem afterWords_modifyRequest (s : Session) (req : Ref)
    {f : SecureRequestData → SecureRequestData} (hf : (f (s.heap req)).msgId = (s.heap req).msgId)
    (r : SecureRequestData) : (s.modifyRequest req f).afterWords r = s.afterWords r := by
  have hid : ∀ ref, ((s.modifyRequest req f).heap ref).msgId = (s.heap ref).msgId := by
    intro ref
    rw [modifyRequest_heap]
    split
    · next h => rw [h, hf]
    · rfl
  rw [afterWords, afterWords]
  cases r.after with
  | none => rfl
  | some after =>
    dsimp only
    rw [hid]
    rfl

theorem written_own (hr : (b.s.heap req).Serialized) :
    Written b { b with words := b.words ++ (b.s.heap req).message } (b.ownPlaced false req) where
  bigMsgId := rfl
  haveSentArr := rfl
  drawn := rfl
  heap := exists_date_self b.s req
  toSend := rfl
  inited := rfl
  toResend := rfl
  haveSent := rfl
  wereAcked := rfl
  message := rfl
  words := by rw [hr.message_eq, Building.ownPlaced, Nat.mul_zero, addAt_zero]

theorem Written.with_pingMsgId {p : Placed} (h : Written b b' p) (pingMsgId : MsgId) :
    Written b { b' with s := { b'.s with pingMsgId } } p :=
  ⟨h.bigMsgId, h.haveSentArr, h.drawn, h.heap, h.toSend, h.inited, h.toResend, h.haveSent,
    h.wereAcked, h.message, h.words⟩

theorem written_state (hr : (b.s.heap req).Serialized) :
    Written b
      { b with
        words := b.words ++ (b.s.heap req).message
        s := { b.s.modifyRequest req (fun r => { r with msDate := 0 }) with
          haveSent := b.s.haveSent.insert (b.s.heap req).msgId req } }
      (b.ownPlaced true req) where
  bigMsgId := rfl
  haveSentArr := rfl
  drawn := rfl
  heap := ⟨0, rfl⟩
  toSend := rfl
  inited := rfl
  toResend := rfl
  haveSent := rfl
  wereAcked := rfl
  message := rfl
  words := by rw [hr.message_eq, Building.ownPlaced, Nat.mul_zero, addAt_zero]

/-- The rest of `Building.placeRequest`, once the request has its id. -/
theorem written_request (hr : (b.s.heap req).Serialized) (hwords : 8 < b.words.length)
    {b₀ : Building} (hassign : b₀.assign clock req = ((b.s.heap req).msgId, b)) :
    Written b (b₀.placeRequest options clock req) (b.requestPlaced options req) := by
  rw [Building.placeRequest, hassign]
  dsimp only
  by_cases hreq : (b.s.heap req).requestId = 0
  · rw [if_pos hreq]
    have hplaced : b.requestPlaced options req =
        { req, message := (b.s.heap req).wrapped [] } := by
      simp [Building.requestPlaced, hreq]
    rw [hplaced, hr.message_eq]
    exact ⟨rfl, rfl, rfl, exists_date_self b.s req, rfl, rfl, rfl, rfl, rfl, rfl,
      by rw [Nat.mul_zero, addAt_zero]⟩
  · rw [if_neg hreq]
    by_cases hack : (b.s.heap req).needAck
    · rw [if_pos hack]
      have hplaced : b.requestPlaced options req =
          { req
            message := (b.s.heap req).wrapped (b.s.layerWords options (b.s.heap req) ++
              b.s.afterWords (b.s.heap req))
            wrap := b.s.layerWords options (b.s.heap req) ++ b.s.afterWords (b.s.heap req)
            grown := (b.s.afterWords (b.s.heap req)).length
            recorded := true } := by
        simp [Building.requestPlaced, hreq, hack]
      rw [hplaced]
      refine ⟨rfl, rfl, rfl, ⟨_, rfl⟩, rfl, rfl, rfl, rfl, rfl, rfl, ?_⟩
      dsimp only
      rw [wrapRequest_eq hr hwords, afterWords_modifyRequest b.s req rfl]
      rfl
    · rw [if_neg hack]
      have hplaced : b.requestPlaced options req =
          { req, message := (b.s.heap req).wrapped [], acked := true } := by
        simp [Building.requestPlaced, hreq, hack]
      rw [hplaced, hr.message_eq]
      exact ⟨rfl, rfl, rfl, exists_date_self b.s req, rfl, rfl, rfl, rfl, rfl, rfl,
        by rw [Nat.mul_zero, addAt_zero]⟩

/-- One request gets its id and is written. -/
structure Placement (clock : Nat → MsgId) (b b' : Building) (p : Placed) : Prop where
  assigned : Assigned clock b (b.assign clock p.req).2 p.req p.message.msgId
  written : Written (b.assign clock p.req).2 b' p

/-- What a request that is still to be placed has to be. -/
structure Ready (clock : Nat → MsgId) (b : Building) (req : Ref) : Prop where
  serialized : (b.s.heap req).Serialized
  unsent : b.s.Unsent req
  big : ∃ n, b.s.drawn = n + 1 ∧ b.bigMsgId = clock n
  words : 8 < b.words.length

theorem Ready.assigned (h : Ready clock b req) :
    Assigned clock b (b.assign clock req).2 req (b.assign clock req).1 :=
  Session.assigned h.serialized.size h.unsent h.big

theorem Ready.msgId (h : Ready clock b req) :
    ((b.assign clock req).2.s.heap req).msgId = (b.assign clock req).1 := by
  obtain ⟨seqNo, hheap, -⟩ := h.assigned.identified.request
  rw [hheap, SecureRequestData.msgId_identify h.serialized.size]

theorem Ready.serialized_assign (h : Ready clock b req) :
    ((b.assign clock req).2.s.heap req).Serialized := by
  obtain ⟨seqNo, hheap, -⟩ := h.assigned.identified.request
  rw [hheap]
  exact h.serialized.identify _ _

theorem Ready.placement (h : Ready clock b req) {p : Placed} (hreq : p.req = req)
    (hwritten : Written (b.assign clock req).2 b' p) : Placement clock b b' p := by
  subst hreq
  have hmsg : p.message.msgId = (b.assign clock p.req).1 := by
    rw [hwritten.message, SecureRequestData.wrapped, h.msgId]
  exact ⟨hmsg ▸ h.assigned, hwritten⟩

variable (options) in
theorem Ready.placeRequest (h : Ready clock b req) :
    Placement clock b (b.placeRequest options clock req)
      ((b.assign clock req).2.requestPlaced options req) := by
  refine h.placement rfl (written_request h.serialized_assign ?_ ?_)
  · rw [h.assigned.words]
    exact h.words
  · rw [h.msgId]

theorem Ready.place (h : Ready clock b req) :
    Placement clock b (b.place clock (some req)) ((b.assign clock req).2.ownPlaced false req) :=
  h.placement rfl (written_own h.serialized_assign)

theorem Ready.placePing (h : Ready clock b req) :
    Placement clock b (b.placePing clock (some req)) ((b.assign clock req).2.ownPlaced false req) :=
  h.placement rfl ((written_own h.serialized_assign).with_pingMsgId _)

theorem Ready.placeState (h : Ready clock b req) :
    Placement clock b (b.placeState clock (some req)) ((b.assign clock req).2.ownPlaced true req) := by
  refine h.placement rfl ?_
  have hwritten := written_state h.serialized_assign
  rw [h.msgId] at hwritten
  exact hwritten

/-! ### A run of placements -/

inductive Placements (clock : Nat → MsgId) : Building → List Placed → Building → Prop where
  | nil (b : Building) : Placements clock b [] b
  | cons {b b' b'' : Building} {p : Placed} {ps : List Placed}
      (ready : Ready clock b p.req) (step : Placement clock b b' p)
      (rest : Placements clock b' ps b'') : Placements clock b (p :: ps) b''

theorem Placements.one {p : Placed} (ready : Ready clock b p.req) (step : Placement clock b b' p) :
    Placements clock b [p] b' :=
  .cons ready step (.nil b')

theorem Placements.append {b'' : Building} {ps qs : List Placed} (h : Placements clock b ps b')
    (h' : Placements clock b' qs b'') : Placements clock b (ps ++ qs) b'' := by
  induction h with
  | nil b => exact h'
  | cons ready step _ ih => exact .cons ready step (ih h')

section

variable {p : Placed} (h : Placement clock b b' p)

include h

theorem Placement.heap_other {ref : Ref} (href : ref ≠ p.req) (hun : b.s.Unsent ref) :
    b'.s.heap ref = b.s.heap ref := by
  obtain ⟨date, hheap⟩ := h.written.heap
  rw [hheap, Function.update_of_ne href, h.assigned.identified.heap ref href hun]

theorem Placement.ids_other {ref : Ref} (href : ref ≠ p.req) :
    (b'.s.heap ref).msgId = (b.s.heap ref).msgId ∧
      (b'.s.heap ref).seqNo = (b.s.heap ref).seqNo := by
  obtain ⟨date, hheap⟩ := h.written.heap
  rw [hheap, Function.update_of_ne href]
  exact h.assigned.identified.ids ref href

theorem Placement.unsent_other {ref : Ref} (href : ref ≠ p.req) (hun : b.s.Unsent ref) :
    b'.s.Unsent ref := by
  intro id hget
  have hsent := h.assigned.identified.unsent ref hun
  rw [h.written.haveSent] at hget
  split at hget
  · rw [Std.ExtTreeMap.getElem?_insert] at hget
    split at hget
    · exact href (Option.some.inj hget).symm
    · exact hsent id hget
  · exact hsent id hget

theorem Placement.big : ∃ n, b'.s.drawn = n + 1 ∧ b'.bigMsgId = clock n := by
  obtain ⟨n, hn, hbig⟩ := h.assigned.big
  exact ⟨n, by rw [h.written.drawn, hn], by rw [h.written.bigMsgId, hbig]⟩

theorem Placement.inited : b'.s.inited = b.s.inited := by
  rw [h.written.inited, h.assigned.identified.inited]

theorem Placement.words : b'.words =
    addAt b.words kMessageLengthPosition (4 * p.grown) ++ p.message.encode := by
  rw [h.written.words, h.assigned.words]

theorem Placement.haveSentArr :
    b'.haveSentArr = b.haveSentArr ++ [p.message.msgId] := by
  rw [h.written.haveSentArr, h.assigned.haveSentArr]

theorem Placement.ready {ref : Ref} (href : ref ≠ p.req) (hr : Ready clock b ref) :
    Ready clock b' ref := by
  refine ⟨?_, h.unsent_other href hr.unsent, h.big, ?_⟩
  · rw [h.heap_other href hr.unsent]
    exact hr.serialized
  · rw [h.words, List.length_append, length_addAt]
    exact Nat.lt_add_right _ hr.words

end

theorem Placements.ready {ps : List Placed} (h : Placements clock b ps b') {ref : Ref}
    (href : ref ∉ ps.map Placed.req) (hr : Ready clock b ref) :
    Ready clock b' ref ∧ b'.s.heap ref = b.s.heap ref := by
  induction h with
  | nil b => exact ⟨hr, rfl⟩
  | cons ready step _ ih =>
    rw [List.map_cons, List.mem_cons, not_or] at href
    obtain ⟨hr', hheap⟩ := ih href.2 (step.ready href.1 hr)
    exact ⟨hr', hheap.trans (step.heap_other href.1 hr.unsent)⟩

theorem Placements.inited {ps : List Placed} (h : Placements clock b ps b') :
    b'.s.inited = b.s.inited := by
  induction h with
  | nil b => rfl
  | cons _ step _ ih => rw [ih, step.inited]

theorem Placements.haveSentArr {ps : List Placed} (h : Placements clock b ps b') :
    b'.haveSentArr = b.haveSentArr ++ ps.map (·.message.msgId) := by
  induction h with
  | nil b => rw [List.map_nil, List.append_nil]
  | cons _ step _ ih => rw [ih, step.haveSentArr, List.append_assoc, List.map_cons]; rfl

theorem addAt_addAt (words : List UInt32) (pos m n : Nat) :
    addAt (addAt words pos m) pos n = addAt words pos (m + n) := by
  rw [addAt, addAt, addAt, List.modify_modify_eq]
  congr 1
  funext w
  rw [Function.comp_apply, UInt32.ofNat_add, UInt32.add_assoc]

/-- The messages of a run lie one after another, and the length of the container has
grown by what was not counted before. -/
theorem Placements.words {ps : List Placed} (h : Placements clock b ps b')
    (hb : 8 < b.words.length) : b'.words =
    addAt b.words kMessageLengthPosition (4 * (ps.map Placed.grown).sum) ++
      ps.flatMap (·.message.encode) := by
  induction h with
  | nil b =>
    rw [List.map_nil, List.sum_nil, Nat.mul_zero, addAt_zero, List.flatMap_nil, List.append_nil]
  | @cons b b' _ p ps _ step _ ih =>
    have hpos : kMessageLengthPosition < b.words.length := by
      rw [kMessageLengthPosition]
      omega
    have hb' : 8 < b'.words.length := by
      rw [step.words, List.length_append, length_addAt]
      exact Nat.lt_add_right _ hb
    rw [ih hb', step.words, addAt_append_left (by rw [length_addAt]; exact hpos), addAt_addAt,
      List.append_assoc, List.map_cons, List.sum_cons, Nat.mul_add, List.flatMap_cons]

theorem Placement.ids {p : Placed} (h : Placement clock b b' p) :
    (b'.s.heap p.req).msgId = p.message.msgId ∧ (b'.s.heap p.req).seqNo = p.message.seqNo := by
  obtain ⟨date, hheap⟩ := h.written.heap
  rw [hheap, Function.update_self, h.written.message]
  exact ⟨rfl, rfl⟩

theorem Placements.ids_other {ps : List Placed} (h : Placements clock b ps b') {ref : Ref}
    (href : ref ∉ ps.map Placed.req) :
    (b'.s.heap ref).msgId = (b.s.heap ref).msgId ∧
      (b'.s.heap ref).seqNo = (b.s.heap ref).seqNo := by
  induction h with
  | nil b => exact ⟨rfl, rfl⟩
  | cons _ step _ ih =>
    rw [List.map_cons, List.mem_cons, not_or] at href
    obtain ⟨hid, hseq⟩ := ih href.2
    obtain ⟨hid', hseq'⟩ := step.ids_other href.1
    exact ⟨hid.trans hid', hseq.trans hseq'⟩

/-- Each message carries the id and the number that its request has in the end. -/
theorem Placements.ids {ps : List Placed} (h : Placements clock b ps b')
    (hnodup : (ps.map Placed.req).Nodup) {p : Placed} (hp : p ∈ ps) :
    (b'.s.heap p.req).msgId = p.message.msgId ∧ (b'.s.heap p.req).seqNo = p.message.seqNo := by
  induction h with
  | nil b => cases hp
  | cons _ step rest ih =>
    obtain ⟨hhead, htail⟩ := List.nodup_cons.mp hnodup
    rcases List.mem_cons.mp hp with rfl | hp
    · obtain ⟨hid, hseq⟩ := rest.ids_other hhead
      exact ⟨hid.trans step.ids.1, hseq.trans step.ids.2⟩
    · exact ih htail hp

theorem Ready.inner_assign (h : Ready clock b req) :
    ((b.assign clock req).2.s.heap req).inner = (b.s.heap req).inner := by
  obtain ⟨seqNo, hheap, -⟩ := h.assigned.identified.request
  rw [hheap, SecureRequestData.inner_identify h.serialized.size]

/-- Each message is the body of its request behind what is put in front. -/
theorem Placements.payload {ps : List Placed} (h : Placements clock b ps b')
    (hnodup : (ps.map Placed.req).Nodup) (hready : ∀ p ∈ ps, Ready clock b p.req) {p : Placed}
    (hp : p ∈ ps) : p.message.payload = p.wrap ++ (b.s.heap p.req).inner := by
  induction h with
  | nil b => cases hp
  | @cons _ _ _ first ps ready step rest ih =>
    obtain ⟨hhead, htail⟩ := List.nodup_cons.mp hnodup
    rcases List.mem_cons.mp hp with rfl | hp
    · rw [step.written.message, ← ready.inner_assign]
      rfl
    · have hne : ∀ q ∈ ps, q.req ≠ first.req := fun q hq heq =>
        hhead (heq ▸ List.mem_map_of_mem hq)
      rw [ih htail (fun q hq => step.ready (hne q hq) (hready q (List.mem_cons_of_mem _ hq))) hp,
        step.heap_other (hne p hp) (hready p (List.mem_cons_of_mem _ hp)).unsent]

/-! ### What is placed for a request of the application -/

/-- What is put in front of a request: `initConnection` when the request asks for it
and `invokeAfterMsg` when the request before it was sent. -/
structure RequestPlaced (options : SendOptions) (s : Session) (p : Placed) : Prop where
  recorded : p.recorded = ((s.heap p.req).requestId != 0 && (s.heap p.req).needAck)
  acked : p.acked = ((s.heap p.req).requestId != 0 && !(s.heap p.req).needAck)
  wrap : ∃ after, p.grown = after.length ∧
    p.wrap = (if p.recorded then s.layerWords options (s.heap p.req) else []) ++ after ∧
    (after = [] ∨ ∃ ref afterId, (s.heap p.req).after = some ref ∧
      after = mtpc_invokeAfterMsg :: idWords afterId)

theorem afterWords_cases (s : Session) (r : SecureRequestData) :
    s.afterWords r = [] ∨ ∃ ref afterId, r.after = some ref ∧
      s.afterWords r = mtpc_invokeAfterMsg :: idWords afterId := by
  rw [afterWords]
  cases r.after with
  | none => exact .inl rfl
  | some after =>
    dsimp only
    split
    · exact .inr ⟨after, _, rfl, rfl⟩
    · exact .inl rfl

theorem Ready.requestPlaced (h : Ready clock b req) :
    RequestPlaced options b.s ((b.assign clock req).2.requestPlaced options req) := by
  obtain ⟨seqNo, hheap, -⟩ := h.assigned.identified.request
  have hinited := h.assigned.identified.inited
  generalize (b.assign clock req).2 = b₁ at hheap hinited ⊢
  generalize (b.assign clock req).1 = msgId at hheap
  have hack : (b₁.s.heap req).needAck = (b.s.heap req).needAck := by
    rw [hheap, SecureRequestData.needAck_identify h.serialized.size]
  have hid : (b₁.s.heap req).requestId = (b.s.heap req).requestId := by
    rw [hheap]
    rfl
  have hafter : (b₁.s.heap req).after = (b.s.heap req).after := by
    rw [hheap]
    rfl
  have hlayer : b₁.s.layerWords options (b₁.s.heap req) =
      b.s.layerWords options (b.s.heap req) := by
    rw [layerWords, layerWords, hinited, hheap]
    rfl
  refine ⟨?_, ?_, ?_⟩
  · rw [Building.requestPlaced, hack, hid]
  · rw [Building.requestPlaced, hack, hid]
  · rw [Building.requestPlaced]
    dsimp only
    split
    · rw [hlayer, ← hafter]
      exact ⟨_, rfl, rfl, afterWords_cases b₁.s (b₁.s.heap req)⟩
    · exact ⟨[], rfl, rfl, .inl rfl⟩

theorem RequestPlaced.congr {s s' : Session} {p : Placed} (h : RequestPlaced options s p)
    (hheap : s.heap p.req = s'.heap p.req) (hinited : s.inited = s'.inited) :
    RequestPlaced options s' p := by
  obtain ⟨hrecorded, hacked, hwrap⟩ := h
  rw [layerWords, hinited] at hwrap
  rw [hheap] at hrecorded hacked hwrap
  exact ⟨hrecorded, hacked, hwrap⟩

variable (options clock) in
theorem requestsPlaced_req (b : Building) (refs : List Ref) :
    (requestsPlaced options clock b refs).map Placed.req = refs := by
  induction refs generalizing b with
  | nil => rfl
  | cons req refs ih => rw [requestsPlaced, List.map_cons, ih]; rfl

variable (options clock) in
theorem placements_requests {refs : List Ref} (hnodup : refs.Nodup)
    (hready : ∀ ref ∈ refs, Ready clock b ref) :
    Placements clock b (requestsPlaced options clock b refs)
        (refs.foldl (Building.placeRequest options clock) b) ∧
      ∀ p ∈ requestsPlaced options clock b refs, RequestPlaced options b.s p := by
  induction refs generalizing b with
  | nil => exact ⟨.nil b, fun p hp => nomatch hp⟩
  | cons req refs ih =>
    obtain ⟨hhead, htail⟩ := List.nodup_cons.mp hnodup
    obtain ⟨hreq, hrefs⟩ := List.forall_mem_cons.mp hready
    have step := hreq.placeRequest options
    have hne : ∀ ref ∈ refs, ref ≠ req := fun ref href heq => hhead (heq ▸ href)
    obtain ⟨hrun, hplaced⟩ := ih htail fun ref href => step.ready (hne ref href) (hrefs ref href)
    refine ⟨.cons hreq step hrun, List.forall_mem_cons.mpr ⟨hreq.requestPlaced, fun p hp => ?_⟩⟩
    have href : p.req ∈ refs := by
      rw [← requestsPlaced_req options clock _ refs]
      exact List.mem_map_of_mem hp
    exact (hplaced p hp).congr (step.heap_other (hne _ href) (hrefs _ href).unsent) step.inited

end Session

end TelegramClient.Mtproto
