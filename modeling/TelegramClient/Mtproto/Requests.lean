import Mathlib
import TelegramClient.Lib.TreeMap

/-! The requests of `MTP::Instance::Private`: an API request is with a session, waits for a
time to be sent again, or waits until its dc knows the authorization. -/

namespace TelegramClient.Mtproto.Requests

abbrev Id := Nat

/-- A dc with its shift; negative in `_requestsByDc` for a request to the main dc. -/
abbrev Dc := Int

def kDcShift : Dc := 10000

def bareDcId (shiftedDcId : Dc) : Dc := shiftedDcId.tmod kDcShift

def shiftDcId (dcId : Dc) (value : Int) : Dc := dcId + kDcShift * value

def getDcIdShift (shiftedDcId : Dc) : Int := shiftedDcId.tdiv kDcShift

/-- The types of errors that `onErrorDefault` tells apart. `floodOther` begins like a flood
wait but names no time, `connectionNotInited` stands for `CONNECTION_LAYER_INVALID` too. -/
inductive ErrorType where
  | migrate (newdc : Nat)
  | floodWait (secs : Nat)
  | floodOther
  | fileIdInvalid
  | connectionNotInited
  | msgWaitFailed
  | other
  deriving DecidableEq, Repr

structure RPCError where
  code : Int
  type : ErrorType
  deriving DecidableEq, Repr

namespace RPCError

def isFloodError (error : RPCError) : Bool :=
  match error.type with
  | .floodWait _ => true
  | .floodOther => true
  | _ => false

def isDefaultHandledError (error : RPCError) : Bool :=
  error.code < 0 || 500 ≤ error.code || error.isFloodError

/-- The error of a response that could not be read. -/
def responseParseFailed : RPCError := ⟨0, .other⟩

end RPCError

/-- What is to be called with the answer of a request: the handlers of a user, or those of
the two requests by which an authorization is exported from the main dc and imported. -/
inductive Handlers where
  | user (onDone onFail : Bool)
  | exportAuth
  | importAuth
  deriving DecidableEq, Repr

structure SecureRequest where
  after : Option Id
  needsLayer : Bool
  deriving DecidableEq, Repr

/-- A response that does not parse is empty, or the handler cannot read it. -/
inductive Reply where
  | result (parses : Bool)
  | error (error : RPCError)
  deriving DecidableEq, Repr

/-- A handler of a user that is running: it was asked about a temporary error, or it was
given the final result. -/
structure Handling where
  id : Id
  handlers : Handlers
  error : Option RPCError
  deriving DecidableEq, Repr

end Requests

open Requests in
/-- `sent` holds the requests that the sessions have and that were not answered, and
`finals` those whose handlers were given a final result. -/
structure Requests where
  mainDcId : Dc
  hasAuthorization : Bool := true
  now : Int := 0
  nextRequestId : Id := 1
  requestsByDc : Std.ExtTreeMap Id Dc := ∅
  parserMap : Std.ExtTreeMap Id Handlers := ∅
  requestMap : Std.ExtTreeMap Id SecureRequest := ∅
  requestsDelays : Std.ExtTreeMap Id Int := ∅
  delayedRequests : List (Id × Int) := []
  authExportRequests : Std.ExtTreeMap Id Dc := ∅
  authWaiters : List (Dc × Id) := []
  badGuestDcRequests : List Id := []
  sent : List (Dc × Id) := []
  handling : Option Handling := none
  finals : List Id := []

namespace Requests

/-- The session that `getSession` finds or starts. -/
def getSession (s : Requests) (shiftedDcId : Dc) : Dc :=
  if shiftedDcId = 0 then s.mainDcId
  else if bareDcId shiftedDcId = 0 then shiftedDcId + bareDcId s.mainDcId
  else shiftedDcId

def sendPrepared (s : Requests) (session : Dc) (id : Id) : Requests :=
  if (session, id) ∈ s.sent then s else { s with sent := (session, id) :: s.sent }

/-- The session of the old main dc and the one that the new main dc had are killed. -/
def setMainDcId (s : Requests) (mainDcId : Dc) : Requests :=
  if s.mainDcId = mainDcId then s
  else
    { s with
      mainDcId
      sent := s.sent.filter fun p => p.1 ≠ s.mainDcId ∧ p.1 ≠ mainDcId }

def registerRequest (s : Requests) (id : Id) (shiftedDcId : Dc) : Requests :=
  { s with requestsByDc := s.requestsByDc.insert id shiftedDcId }

def unregisterRequest (s : Requests) (id : Id) : Requests :=
  { s with
    requestsDelays := s.requestsDelays.erase id
    requestMap := s.requestMap.erase id
    requestsByDc := s.requestsByDc.erase id }

def storeRequest (s : Requests) (id : Id) (request : SecureRequest) (callbacks : Handlers) :
    Requests :=
  let parserMap :=
    if callbacks = .user false false then s.parserMap else s.parserMap.insertIfNew id callbacks
  { s with parserMap, requestMap := s.requestMap.insertIfNew id request }

def getRequest (s : Requests) (id : Id) : Option Id := if id ∈ s.requestMap then some id else none

/-- `send` with the id that it takes. -/
def sendRequest (s : Requests) (callbacks : Handlers) (shiftedDcId : Dc) (afterRequestId : Id) :
    Requests :=
  let id := s.nextRequestId
  let session := s.getSession shiftedDcId
  let after := if afterRequestId = 0 then none else s.getRequest afterRequestId
  let s := { s with nextRequestId := id + 1 }
  let s := s.storeRequest id ⟨after, true⟩ callbacks
  let s := s.registerRequest id (if shiftedDcId = 0 then -session else session)
  s.sendPrepared session id

def cancel (s : Requests) (id : Id) : Requests :=
  let sent :=
    match s.requestsByDc[id]? with
    | some shiftedDcId => s.sent.erase (s.getSession |shiftedDcId|, id)
    | none => s.sent
  { s.unregisterRequest id with sent, parserMap := s.parserMap.erase id }

/-- A delayed request is sent again, unless it is gone. -/
def resend (s : Requests) (id : Id) : Requests :=
  match s.requestsByDc[id]? with
  | some shiftedDcId =>
    if id ∈ s.requestMap then s.sendPrepared (s.getSession |shiftedDcId|) id else s
  | none => s

/-- The loop of `checkDelayedRequests` over what is still in front. -/
def resendDue (s : Requests) : List (Id × Int) → Requests
  | [] => s
  | p :: rest =>
    if p.2 ≤ s.now then ({ s with delayedRequests := rest }.resend p.1).resendDue rest else s

def checkDelayedRequests (s : Requests) : Requests := s.resendDue s.delayedRequests

def waiters (s : Requests) (dcId : Dc) : List Id :=
  (s.authWaiters.filter fun p => p.1 = dcId).map Prod.snd

def clearWaiters (s : Requests) (dcId : Dc) : Requests :=
  { s with authWaiters := s.authWaiters.filter fun p => p.1 ≠ dcId }

/-- What `changeRequestByDc` stores for a request. -/
def changedDc (shiftedDcId newdc : Dc) : Dc :=
  if shiftedDcId < 0 then -newdc else shiftDcId newdc (getDcIdShift shiftedDcId)

def resendWaiter (s : Requests) (newdc : Dc) (id : Id) : Requests :=
  match s.requestsByDc[id]? with
  | some shiftedDcId =>
    if id ∈ s.requestMap then
      let changed := changedDc shiftedDcId newdc
      let s := s.registerRequest id changed
      let s := if changed < 0 then s.setMainDcId newdc else s
      s.sendPrepared (s.getSession changed) id
    else s
  | none => s

def importDone (s : Requests) (id : Id) : Requests :=
  match s.requestsByDc[id]? with
  | some shiftedDcId =>
    let newdc := bareDcId shiftedDcId
    ((s.waiters newdc).foldl (fun s id => s.resendWaiter newdc id) s).clearWaiters newdc
  | none => s

def exportDone (s : Requests) (id : Id) : Requests :=
  match s.authExportRequests[id]? with
  | some shiftedDcId =>
    let s := s.sendRequest .importAuth shiftedDcId 0
    { s with authExportRequests := s.authExportRequests.erase id }
  | none => s

def exportFail (s : Requests) (error : RPCError) (id : Id) : Requests :=
  if error.isDefaultHandledError then s
  else
    match s.authExportRequests[id]? with
    | some shiftedDcId => s.clearWaiters (bareDcId shiftedDcId)
    | none => s

/-! ### The default handling of errors

Each case of `onErrorDefault` tells whether it took care of the request. -/

def migrate (s : Requests) (id : Id) (newdc : Dc) : Bool × Requests :=
  match s.requestsByDc[id]? with
  | some dcWithShift =>
    if id = 0 ∨ dcWithShift = 0 ∨ newdc = 0 then (false, s)
    else
      let newdcWithShift :=
        if dcWithShift < 0 then newdc else shiftDcId newdc (getDcIdShift dcWithShift)
      let s := if dcWithShift < 0 then s.setMainDcId newdc else s
      if id ∈ s.requestMap then
        let session := s.getSession newdcWithShift
        let s := s.registerRequest id (if dcWithShift < 0 then -newdcWithShift else newdcWithShift)
        (true, s.sendPrepared session id)
      else (false, s)
  | none => (false, s)

/-- The seconds to wait: those of a flood wait, or twice as many as the last time. -/
def delaySecs (s : Requests) (id : Id) (error : RPCError) : Int × Std.ExtTreeMap Id Int :=
  if error.code < 0 ∨ 500 ≤ error.code then
    match s.requestsDelays[id]? with
    | some secs =>
      if 60 < secs then (secs, s.requestsDelays)
      else (secs * 2, s.requestsDelays.insert id (secs * 2))
    | none => (1, s.requestsDelays.insert id 1)
  else
    match error.type with
    | .floodWait secs => (secs, s.requestsDelays)
    | _ => (1, s.requestsDelays)

/-- The place in the delayed requests is found from the front; there is none if the request
is met before it. -/
def insertDelayed (id : Id) (sendAt : Int) : List (Id × Int) → Option (List (Id × Int))
  | [] => some [(id, sendAt)]
  | p :: l =>
    if p.1 = id then none
    else if sendAt < p.2 then some ((id, sendAt) :: p :: l)
    else (insertDelayed id sendAt l).map (List.cons p)

def delay (s : Requests) (id : Id) (error : RPCError) : Bool × Requests :=
  if id = 0 then (false, s)
  else
    let secs := s.delaySecs id error
    let s := { s with requestsDelays := secs.2 }
    match insertDelayed id (s.now + secs.1 * 1000 + 10) s.delayedRequests with
    | none => (true, s)
    | some delayedRequests => (true, { s with delayedRequests }.checkDelayedRequests)

def sendExport (s : Requests) (dcWithShift : Dc) : Requests :=
  let exportRequestId := s.nextRequestId
  let s := s.sendRequest .exportAuth 0 0
  { s with authExportRequests := s.authExportRequests.insertIfNew exportRequestId dcWithShift }

def waitForAuth (s : Requests) (id : Id) (badGuestDc : Bool) : Bool × Requests :=
  let dcWithShift := s.requestsByDc[id]?.getD 0
  let newdc := bareDcId |dcWithShift|
  if newdc = 0 ∨ newdc = s.mainDcId ∨ s.hasAuthorization = false then (false, s)
  else
    let s := if s.waiters newdc = [] then s.sendExport |dcWithShift| else s
    let badGuestDcRequests := if badGuestDc then id :: s.badGuestDcRequests else s.badGuestDcRequests
    (true, { s with authWaiters := s.authWaiters ++ [(newdc, id)], badGuestDcRequests })

def initConnection (s : Requests) (id : Id) : Bool × Requests :=
  match s.requestMap[id]?, s.requestsByDc[id]? with
  | some request, some dcWithShift =>
    if dcWithShift = 0 then (false, s)
    else
      let s := { s with requestMap := s.requestMap.insert id { request with needsLayer := true } }
      (true, s.sendPrepared (s.getSession |dcWithShift|) id)
  | _, _ => (false, s)

/-- A request is delayed together with the one it depends on, if that is delayed. -/
def insertBefore (id after : Id) : List (Id × Int) → Option (List (Id × Int))
  | [] => some []
  | p :: l =>
    if p.1 = id then none
    else if p.1 = after then some ((id, p.2) :: p :: l)
    else (insertBefore id after l).map (List.cons p)

def waitWith (s : Requests) (id after : Id) (newdc : Dc) : Requests :=
  if (newdc, after) ∈ s.authWaiters then
    let authWaiters :=
      if (newdc, id) ∈ s.authWaiters then s.authWaiters else s.authWaiters ++ [(newdc, id)]
    let badGuestDcRequests :=
      if after ∈ s.badGuestDcRequests ∧ id ∉ s.badGuestDcRequests then id :: s.badGuestDcRequests
      else s.badGuestDcRequests
    { s with authWaiters, badGuestDcRequests }
  else
    match insertBefore id after s.delayedRequests with
    | none => s
    | some delayedRequests => { s with delayedRequests }.checkDelayedRequests

def waitFailed (s : Requests) (id : Id) : Bool × Requests :=
  match s.requestMap[id]? with
  | some ⟨some after, needsLayer⟩ =>
    match s.requestsByDc[id]?, s.requestsByDc[after]? with
    | some dcWithShift, some afterDcId =>
      if dcWithShift = afterDcId then
        if dcWithShift = 0 then (false, s)
        else (true, s.waitWith id after (bareDcId |dcWithShift|))
      else
        let s := { s with requestMap := s.requestMap.insert id ⟨none, needsLayer⟩ }
        if dcWithShift = 0 then (false, s)
        else
          let s := { s with requestMap := s.requestMap.insert id ⟨none, true⟩ }
          (true, s.sendPrepared (s.getSession |dcWithShift|) id)
    | _, _ => (false, s)
  | _ => (false, s)

def isBadGuestDc (error : RPCError) : Bool := error.code = 400 ∧ error.type = .fileIdInvalid

/-- A request that gets this error is delayed. -/
def delays (error : RPCError) : Bool :=
  error.code < 0 || 500 ≤ error.code ||
    (match error.type with
    | .floodWait _ => true
    | _ => false)

/-- A request that gets this error lacks the authorization. -/
def lacksAuth (s : Requests) (id : Id) (error : RPCError) : Bool :=
  error.code = 401 || (isBadGuestDc error && id ∉ s.badGuestDcRequests)

/-- The cases of `onErrorDefault` behind the migration. -/
def onOtherError (s : Requests) (id : Id) (error : RPCError) : Bool × Requests :=
  if delays error then s.delay id error
  else if s.lacksAuth id error then s.waitForAuth id (isBadGuestDc error)
  else
    match error.type with
    | .connectionNotInited => s.initConnection id
    | .msgWaitFailed => s.waitFailed id
    | _ =>
      (false,
        if isBadGuestDc error then
          { s with badGuestDcRequests := s.badGuestDcRequests.filter fun k => k ≠ id }
        else s)

def onErrorDefault (s : Requests) (id : Id) (error : RPCError) : Bool × Requests :=
  match error.type with
  | .migrate newdc => s.migrate id newdc
  | _ => s.onOtherError id error

/-! ### The answers -/

def finish (s : Requests) (id : Id) : Requests := { s with finals := id :: s.finals }

/-- The handler of a failure is given the error for good. -/
def failed (s : Requests) (id : Id) (callbacks : Handlers) (error : RPCError) : Requests :=
  match callbacks with
  | .user _ true => { s.finish id with handling := some ⟨id, callbacks, none⟩ }
  | .user _ false => s.unregisterRequest id
  | .exportAuth => ((s.finish id).exportFail error id).unregisterRequest id
  | .importAuth => (s.finish id).unregisterRequest id

/-- `rpcErrorOccured` from the default handling on. -/
def defaultError (s : Requests) (id : Id) (callbacks : Handlers) (error : RPCError) : Requests :=
  match s.onErrorDefault id error with
  | (true, s) => { s with parserMap := s.parserMap.insertIfNew id callbacks }
  | (false, s) => s.failed id callbacks error

/-- The handler of a user is asked about a temporary error first; those of the export and
the import leave it to the default handling. -/
def asksHandler (callbacks : Handlers) (error : RPCError) : Bool :=
  match callbacks with
  | .user _ onFail => onFail && error.isDefaultHandledError
  | _ => false

def handleError (s : Requests) (id : Id) (callbacks : Handlers) (error : RPCError) : Requests :=
  if asksHandler callbacks error then { s with handling := some ⟨id, callbacks, some error⟩ }
  else s.defaultError id callbacks error

def succeeded (s : Requests) (id : Id) (callbacks : Handlers) : Requests :=
  match callbacks with
  | .user true _ => { s.finish id with handling := some ⟨id, callbacks, none⟩ }
  | .user false _ => s.unregisterRequest id
  | .exportAuth => ((s.finish id).exportDone id).unregisterRequest id
  | .importAuth => ((s.finish id).importDone id).unregisterRequest id

def execCallback (s : Requests) (id : Id) (reply : Reply) : Requests :=
  match s.parserMap[id]? with
  | none => s.unregisterRequest id
  | some callbacks =>
    let s := { s with parserMap := s.parserMap.erase id }
    match reply with
    | .result parses =>
      if parses then s.succeeded id callbacks
      else s.handleError id callbacks .responseParseFailed
    | .error error => s.handleError id callbacks error

/-- The handler of a user has returned. -/
def returned (s : Requests) (c : Handling) (handled : Bool) : Requests :=
  let s := { s with handling := none }
  match c.error with
  | none => s.unregisterRequest c.id
  | some error =>
    if handled then (s.finish c.id).unregisterRequest c.id
    else s.defaultError c.id c.handlers error

inductive Action where
  | send (onDone onFail : Bool) (shiftedDcId : Dc) (afterRequestId : Id)
  | cancel (id : Id)
  | tick (ms : Nat)
  | authorize (hasAuthorization : Bool)
  | checkDelayed
  | answer (session : Dc) (id : Id) (reply : Reply)
  | returned (handled : Bool)
  deriving DecidableEq, Repr

/-- The users know the ids of their own requests only, and an answer comes to a request
that a session has. -/
def step (s : Requests) : Action → Option Requests
  | .send onDone onFail shiftedDcId afterRequestId =>
    some (s.sendRequest (.user onDone onFail) shiftedDcId afterRequestId)
  | .cancel id =>
    match s.parserMap[id]? with
    | some .exportAuth => none
    | some .importAuth => none
    | _ => some (s.cancel id)
  | .tick ms => some { s with now := s.now + ms }
  | .authorize hasAuthorization => some { s with hasAuthorization }
  | .checkDelayed => if s.handling = none then some s.checkDelayedRequests else none
  | .answer session id reply =>
    if s.handling = none ∧ (session, id) ∈ s.sent then
      some ({ s with sent := s.sent.erase (session, id) }.execCallback id reply)
    else none
  | .returned handled => s.handling.map fun c => s.returned c handled

def run (s : Requests) : List Action → Option Requests
  | [] => some s
  | a :: as =>
    match s.step a with
    | none => none
    | some s => run s as

/-! ### Nobody is stranded -/

/-- All places where requests wait for an answer or to be sent again. -/
def held (s : Requests) : List Id :=
  s.sent.map Prod.snd ++ s.delayedRequests.map Prod.fst ++ s.authWaiters.map Prod.snd

/-- A request with these handlers exports or imports the authorization for the dc. It must
not be waiting for that dc itself. -/
def Outstanding (s : Requests) (handlers : Id → Option Handlers) (dcId : Dc) : Prop :=
  ∃ (id : Id) (shiftedDcId : Dc),
    ((handlers id = some .exportAuth ∧ s.authExportRequests[id]? = some shiftedDcId) ∨
      (handlers id = some .importAuth ∧ s.requestsByDc[id]? = some shiftedDcId)) ∧
    bareDcId shiftedDcId = dcId ∧ (dcId, id) ∉ s.authWaiters

structure NoneStranded (s : Requests) : Prop where
  registered : ∀ (id : Id) (h : Handlers), s.parserMap[id]? = some h →
    id ∈ s.requestsByDc ∧ id ∈ s.requestMap
  placed : ∀ (id : Id) (h : Handlers), s.parserMap[id]? = some h →
    (∃ session, (session, id) ∈ s.sent) ∨ (s.delayedRequests.map Prod.fst).count id = 1 ∨
      ∃ (shiftedDcId : Dc), s.requestsByDc[id]? = some shiftedDcId ∧
        (bareDcId |shiftedDcId|, id) ∈ s.authWaiters ∧
        s.Outstanding (fun id => s.parserMap[id]?) (bareDcId |shiftedDcId|)
  /-- It is in one of these places only. -/
  single : ∀ (id : Id) (h : Handlers), s.parserMap[id]? = some h → s.held.count id = 1
  sorted : s.delayedRequests.Pairwise fun p q => p.2 ≤ q.2
  once : s.finals.Nodup

/-! ### The steps that strand a request

They are told from the state in which the default handling begins, where the request is
with no session and its handlers have been taken out. -/

/-- Somebody waits for the authorization of the dc. -/
def Awaited (s : Requests) (dcId : Dc) : Prop :=
  ∃ id, (dcId, id) ∈ s.authWaiters ∧ id ∈ s.requestsByDc

/-- Somebody waits for an authorization that nobody brings. -/
def Deserted (s : Requests) (dcId : Dc) : Prop :=
  s.Awaited dcId ∧ ¬s.Outstanding (fun id => s.parserMap[id]?) dcId

/-- When the main dc changes, a session that is killed has a request. -/
def Kills (s : Requests) (newdc : Dc) : Prop :=
  newdc ≠ s.mainDcId ∧
    ∃ p ∈ s.sent, p.2 ∈ s.parserMap ∧ (p.1 = s.mainDcId ∨ p.1 = newdc)

/-- An export or import request fails while somebody waits for it. -/
def FailStrands (s : Requests) (id : Id) (callbacks : Handlers) (error : RPCError) : Prop :=
  (callbacks = .exportAuth ∧ ∃ shiftedDcId, s.authExportRequests[id]? = some shiftedDcId ∧
    s.Awaited (bareDcId shiftedDcId) ∧
      (error.isDefaultHandledError = true → s.Deserted (bareDcId shiftedDcId))) ∨
  (callbacks = .importAuth ∧ ∃ shiftedDcId, s.requestsByDc[id]? = some shiftedDcId ∧
    s.Deserted (bareDcId shiftedDcId))

/-- The sessions of another main dc are killed, or an import goes to another dc. -/
def MigrateStrands (s : Requests) (id : Id) (callbacks : Handlers) (newdc : Dc) : Prop :=
  ∃ shiftedDcId, s.requestsByDc[id]? = some shiftedDcId ∧
    if shiftedDcId < 0 then
      s.Kills newdc ∨ (callbacks = .importAuth ∧ s.Deserted (bareDcId shiftedDcId))
    else
      callbacks = .importAuth ∧ s.Deserted (bareDcId shiftedDcId) ∧
        bareDcId (shiftDcId newdc (getDcIdShift shiftedDcId)) ≠ bareDcId shiftedDcId

/-- The request joins waiters that nobody brings the authorization for. -/
def JoinStrands (s : Requests) (dcId : Dc) : Prop :=
  s.waiters dcId ≠ [] ∧ ¬s.Outstanding (fun id => s.parserMap[id]?) dcId

/-- The request that this one depends on is neither waiting nor delayed. -/
def DependStrands (s : Requests) (id : Id) : Prop :=
  ∃ (after : Id) (needsLayer : Bool) (dcId : Dc),
    s.requestMap[id]? = some ⟨some after, needsLayer⟩ ∧ s.requestsByDc[id]? = some dcId ∧
      s.requestsByDc[after]? = some dcId ∧
      if (bareDcId |dcId|, after) ∈ s.authWaiters then s.JoinStrands (bareDcId |dcId|)
      else after ∉ s.delayedRequests.map Prod.fst

def OtherStrands (s : Requests) (id : Id) (callbacks : Handlers) (error : RPCError) : Prop :=
  if delays error then id ∉ s.requestsByDc
  else if s.lacksAuth id error then
    let newdc := bareDcId |s.requestsByDc[id]?.getD 0|
    if newdc = 0 ∨ newdc = s.mainDcId ∨ s.hasAuthorization = false then
      s.FailStrands id callbacks error
    else s.JoinStrands newdc
  else
    match error.type with
    | .connectionNotInited =>
      s.requestsByDc[id]?.getD 0 = 0 ∧ s.FailStrands id callbacks error
    | .msgWaitFailed => s.DependStrands id ∨ s.FailStrands id callbacks error
    | _ => s.FailStrands id callbacks error

def DefaultStrands (s : Requests) (id : Id) (callbacks : Handlers) (error : RPCError) : Prop :=
  match error.type with
  | .migrate newdc =>
    if s.requestsByDc[id]?.getD 0 = 0 ∨ newdc = 0 then s.FailStrands id callbacks error
    else s.MigrateStrands id callbacks newdc
  | _ => s.OtherStrands id callbacks error

/-- A request to the main dc has come to wait for another dc, and would be resent to a
session for the negative of its number. -/
def ImportStrands (s : Requests) (id : Id) : Prop :=
  ∃ shiftedDcId, s.requestsByDc[id]? = some shiftedDcId ∧
    ∃ w ∈ s.waiters (bareDcId shiftedDcId), ∃ dcWithShift, s.requestsByDc[w]? = some dcWithShift ∧
      dcWithShift < 0

/-- The state in which the reply to a request is handled. -/
def taken (s : Requests) (session : Dc) (id : Id) : Requests :=
  { s with sent := s.sent.erase (session, id), parserMap := s.parserMap.erase id }

/-- Somebody is stranded by the step. -/
def Strands (s : Requests) (a : Action) : Prop :=
  (∃ (session : Dc) (id : Id) (callbacks : Handlers) (error : RPCError),
    (a = .answer session id (.error error) ∨
      (a = .answer session id (.result false) ∧ error = .responseParseFailed)) ∧
    s.parserMap[id]? = some callbacks ∧ asksHandler callbacks error = false ∧
    (s.taken session id).DefaultStrands id callbacks error) ∨
  (∃ (session : Dc) (id : Id), a = .answer session id (.result true) ∧
    s.parserMap[id]? = some .importAuth ∧ (s.taken session id).ImportStrands id) ∨
  (∃ (c : Handling) (error : RPCError), a = .returned false ∧ s.handling = some c ∧
    c.error = some error ∧ s.DefaultStrands c.id c.handlers error)

/-- A step that strands nobody. -/
def KeepingStep (s s' : Requests) : Prop := ∃ a : Action, s.step a = some s' ∧ ¬s.Strands a

end Requests

end TelegramClient.Mtproto
