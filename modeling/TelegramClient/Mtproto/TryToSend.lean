import Mathlib
import TelegramClient.Mtproto.Container
import TelegramClient.Mtproto.ResetSession

/-! Sending all that waits in one container. The ids of the messages are drawn
while the container is built and its own id after them. -/

namespace TelegramClient.Mtproto

/-- What is read of the connection and the clocks; `fresh` is the first of the
places for new requests. -/
structure SendOptions where
  now : Int
  pingIdToSend : MsgId := 0
  mainSession : Bool := true
  usingHttpWait : Bool := false
  nextRequestId : RequestId := 0
  initSerialized : List UInt32 := []
  fresh : Ref

structure Extras where
  ping : Option Ref := none
  ack : Option Ref := none
  resend : Option Ref := none
  state : Option Ref := none
  httpWait : Option Ref := none

def Extras.count (e : Extras) : Nat :=
  e.ping.toList.length + e.ack.toList.length + e.resend.toList.length + e.state.toList.length +
    e.httpWait.toList.length

def kPingDelayDisconnect : UInt32 := 3

def vectorRequest (typeId : UInt32) (ids : List MsgId) : SecureRequestData :=
  serialize ([typeId, mtpc_vector, UInt32.ofNat ids.length] ++ ids.flatMap idWords)

namespace Session

section

variable (options : SendOptions)

def pingRequest : SecureRequestData :=
  { (if options.mainSession then
      serialize ([mtpc_ping_delay_disconnect] ++ idWords options.pingIdToSend ++
        [kPingDelayDisconnect])
    else serialize ([mtpc_ping] ++ idWords options.pingIdToSend)) with
    msDate := options.now }

def allocate (s : Session) (req : Ref) (r : SecureRequestData) : Session :=
  s.modifyRequest req fun _ => r

/-- The requests that the session makes for itself, in new places. -/
def makeExtras (s : Session) : Extras × Session :=
  let ping := if options.pingIdToSend ≠ 0 then some options.fresh else none
  let ack := if s.ackRequestData ≠ [] then some (options.fresh + 1) else none
  let resend := if s.resendRequestData ≠ [] then some (options.fresh + 2) else none
  let state := if s.stateRequest.toList ≠ [] then some (options.fresh + 3) else none
  let httpWait := if options.usingHttpWait then some (options.fresh + 4) else none
  let s' := s.allocate options.fresh (pingRequest options)
  let s' := s'.allocate (options.fresh + 1)
    { vectorRequest mtpc_msgs_ack s.ackRequestData with msDate := options.now }
  let s' := s'.allocate (options.fresh + 2)
    { vectorRequest mtpc_msg_resend_req s.resendRequestData with msDate := options.now }
  let s' := s'.allocate (options.fresh + 3)
    { vectorRequest mtpc_msgs_state_req (s.stateRequest.toList.map Prod.fst) with
      msDate := options.now, requestId := options.nextRequestId }
  let s' := s'.allocate (options.fresh + 4)
    { serialize [mtpc_http_wait, 100, 30, 25000] with msDate := options.now }
  ({ ping, ack, resend, state, httpWait },
    { s' with ackRequestData := [], resendRequestData := [], stateRequest := ∅ })

end

/-! ### One request placed in a container -/

def prepareToSend (s : Session) (r : SecureRequestData) (currentLastId : MsgId) :
    MsgId × SecureRequestData × Session :=
  if r.size < 9 then (0, r, s)
  else if r.msgId ≠ 0 then (r.msgId, r, { s with toResend := s.toResend.erase r.msgId })
  else
    let (seqNo, s) := s.nextRequestSeqNumber r.needAck
    (currentLastId, (r.setMsgId currentLastId).setSeqNo seqNo, s)

section

variable (clock : Nat → MsgId)

/-- The id is searched for among those not in use, as after a reset, but with the
maps following each change. -/
def replaceMsgId (s : Session) (req : Ref) (newId : MsgId) : MsgId × Session :=
  let r := s.heap req
  if r.size < 9 then (0, s)
  else if r.msgId = newId then (newId, s)
  else if r.msgId ≠ 0 then
    let (newId, s) := s.unusedMsgId clock newId
    let s := s.replaceKeys (r.msgId, newId)
    let s := (s.haveSent.toList.map Prod.snd).foldl
      (replaceInContainer ((∅ : Std.ExtTreeMap MsgId MsgId).insert r.msgId newId)) s
    (newId, s.modifyRequest req (·.setMsgId newId))
  else
    let (seqNo, s) := s.nextRequestSeqNumber r.needAck
    (newId, s.modifyRequest req fun r => (r.setSeqNo seqNo).setMsgId newId)

structure Building where
  s : Session
  words : List UInt32
  bigMsgId : MsgId
  haveSentArr : List MsgId := []

/-- The id of the next message; the id of the container stays above it. -/
def Building.assign (b : Building) (req : Ref) : MsgId × Building :=
  let prepared := b.s.prepareToSend (b.s.heap req) b.bigMsgId
  let s := prepared.2.2.modifyRequest req fun _ => prepared.2.1
  let replaced :=
    if b.bigMsgId < prepared.1 then s.replaceMsgId clock req b.bigMsgId else (prepared.1, s)
  let big :=
    if b.bigMsgId ≤ replaced.1 then replaced.2.msgid clock else (b.bigMsgId, replaced.2)
  (replaced.1,
    { b with s := big.2, bigMsgId := big.1, haveSentArr := b.haveSentArr ++ [replaced.1] })

def Building.placeToContainer (b : Building) (req : Ref) : MsgId × Building :=
  let (msgId, b) := b.assign clock req
  (msgId, { b with words := b.words ++ (b.s.heap req).message })

def Building.place (b : Building) (req : Option Ref) : Building :=
  match req with
  | none => b
  | some req => (b.placeToContainer clock req).2

end

/-- The request with `invokeAfterMsg` in front when it waits for a sent one;
`skip` words are left free for what else is put in front. -/
def wrapInvokeAfter (s : Session) (dst : List UInt32) (r : SecureRequestData) (afterId : MsgId)
    (skip : Nat) : List UInt32 :=
  if afterId ≠ 0 ∧ s.haveSent.contains afterId then
    let dst' := addAt (dst ++ r.header ++ List.replicate skip 0 ++ mtpc_invokeAfterMsg ::
      idWords afterId ++ r.inner) (dst.length + 3) 12
    if dst.length + 3 ≠ kMessageLengthPosition then addAt dst' kMessageLengthPosition 12 else dst'
  else dst ++ r.header ++ List.replicate skip 0 ++ r.inner

section

variable (options : SendOptions)

def wrapRequest (s : Session) (needsLayer : Bool) (dst : List UInt32) (r : SecureRequestData) :
    List UInt32 :=
  let init := options.initSerialized
  let reqNeedsLayer := needsLayer && r.needsLayer
  match r.after with
  | some after =>
    let dst' := s.wrapInvokeAfter dst r (s.heap after).msgId (if reqNeedsLayer then init.length else 0)
    if reqNeedsLayer then
      addAt (overwrite dst' (dst.length + 4) init) (dst.length + 3) (4 * init.length)
    else dst'
  | none =>
    if reqNeedsLayer then
      addAt (dst ++ r.header ++ init ++ r.inner) (dst.length + 3) (4 * init.length)
    else dst ++ r.message

variable (clock : Nat → MsgId)

def Building.placeRequest (b : Building) (req : Ref) : Building :=
  let (msgId, b) := b.assign clock req
  let r := b.s.heap req
  if r.requestId = 0 then { b with words := b.words ++ r.message }
  else if r.needAck then
    let s := b.s.modifyRequest req fun r =>
      { r with msDate := if r.isStateRequest then 0 else options.now }
    { b with
      words := s.wrapRequest options (!s.inited) b.words r
      s := { s with haveSent := s.haveSent.insert msgId req } }
  else
    { b with
      words := b.words ++ r.message
      s := { b.s with wereAcked := b.s.wereAcked.insert msgId r.requestId } }

def Building.placeState (b : Building) (req : Option Ref) : Building :=
  match req with
  | none => b
  | some req =>
    let (msgId, b) := b.placeToContainer clock req
    let s := b.s.modifyRequest req fun r => { r with msDate := 0 }
    { b with s := { s with haveSent := s.haveSent.insert msgId req } }

def Building.placePing (b : Building) (req : Option Ref) : Building :=
  match req with
  | none => b
  | some req =>
    let (msgId, b) := b.placeToContainer clock req
    { b with s := { b.s with pingMsgId := msgId } }

end

/-! ### The container -/

def toSendRefs (s : Session) : List Ref := s.toSend.toList.map Prod.snd

def extraSize (s : Session) (req : Option Ref) : Nat :=
  (req.map fun req => (s.heap req).messageSize).getD 0

/-- The size counts `initConnection` for each request that asks for it. -/
def containerSize (s : Session) (e : Extras) (initSize : Nat) : Nat :=
  2 + s.extraSize e.ping + s.extraSize e.ack + s.extraSize e.resend + s.extraSize e.state +
    s.extraSize e.httpWait +
    (s.toSendRefs.map fun req =>
      (s.heap req).messageSize + if !s.inited && (s.heap req).needsLayer then initSize else 0).sum

/-- The ids of the messages sent, wrapped like a request. -/
def haveSentIdsWrap (ids : List MsgId) (toSendCount : Nat) (contMsgId : MsgId) :
    SecureRequestData :=
  let idsWrapSize := 2 * toSendCount
  let wrap : SecureRequestData :=
    { words := overwrite (prepare idsWrapSize ++ List.replicate idsWrapSize 0)
        kMessageBodyPosition (ids.flatMap idWords) }
  (wrap.setMsgId contMsgId).setSeqNo 0

section

variable (options : SendOptions) (clock : Nat → MsgId)

def beginContainer (s : Session) (e : Extras) : Building :=
  let toSendCount := s.toSendRefs.length + e.count
  let (bigMsgId, s') := s.msgid clock
  { s := s'
    bigMsgId
    words := prepare (s.containerSize e options.initSerialized.length) ++
      [mtpc_msg_container, UInt32.ofNat toSendCount] }

def placeAll (s : Session) (e : Extras) : Building :=
  let b := (s.beginContainer options clock e).placePing clock e.ping
  let b := s.toSendRefs.foldl (Building.placeRequest options clock) b
  let b := b.placeState clock e.state
  let b := b.place clock e.resend
  let b := b.place clock e.ack
  b.place clock e.httpWait

structure Sent where
  s : Session
  toSendRequest : SecureRequestData
  contMsgId : MsgId
  haveSentArr : List MsgId

def finishContainer (b : Building) (toSendCount : Nat) : Sent :=
  let (contMsgId, toSendRequest, s) := b.s.prepareToSend { words := b.words } b.bigMsgId
  let wrap := options.fresh + 5
  let s := s.allocate wrap (haveSentIdsWrap b.haveSentArr toSendCount contMsgId)
  { s := { s with haveSent := s.haveSent.insert contMsgId wrap, toSend := ∅ }
    toSendRequest
    contMsgId
    haveSentArr := b.haveSentArr }

/-- The container that a connected session sends with all that waits. -/
def sendContainer (s : Session) : Sent :=
  let (e, s) := s.makeExtras options
  finishContainer options (s.placeAll options clock e) (s.toSendRefs.length + e.count)

end

end Session

end TelegramClient.Mtproto
