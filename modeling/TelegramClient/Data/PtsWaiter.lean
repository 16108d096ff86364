import Mathlib

/-! The waiter that orders updates by their pts. The timer of `MainWidget` and
the request for a difference are events of the caller; here they are the calls
`applySkippedUpdates` and `setRequesting`. -/

namespace TelegramClient

inductive PtsSkippedQueue where
  | skippedUpdate
  | skippedUpdates
  deriving DecidableEq, Repr

inductive ApiCall (U Us : Type) where
  | applyUpdateNoPtsCheck (update : U)
  | applyUpdatesNoPtsCheck (updates : Us)
  deriving DecidableEq, Repr

/-- What an overload of `updated` and `updateAndApply` carries beside pts and
count: one update, a container of updates, or nothing. -/
inductive Payload (U Us : Type) where
  | update (update : U)
  | updates (updates : Us)
  | none
  deriving DecidableEq, Repr

def Payload.call {U Us : Type} : Payload U Us → Option (ApiCall U Us)
  | .update u => some (.applyUpdateNoPtsCheck u)
  | .updates us => some (.applyUpdatesNoPtsCheck us)
  | .none => Option.none

structure PtsWaiter (U Us : Type) where
  queue : Std.ExtTreeMap Nat PtsSkippedQueue := {}
  updateQueue : Std.ExtTreeMap Nat U := {}
  updatesQueue : Std.ExtTreeMap Nat Us := {}
  good : Int := 0
  last : Int := 0
  count : Int := 0
  applySkippedLevel : Int := 0
  requesting : Bool := false
  waitingForSkipped : Bool := false
  waitingForShortPoll : Bool := false
  skippedKey : Nat := 0

namespace PtsWaiter

variable {U Us : Type}

def kWaitForSkippedTimeout : Int := 1000

def clearSkippedUpdates (w : PtsWaiter U Us) : PtsWaiter U Us :=
  { w with queue := {}, updateQueue := {}, updatesQueue := {}, applySkippedLevel := 0 }

def init (w : PtsWaiter U Us) (pts : Int) : PtsWaiter U Us :=
  { w with good := pts, last := pts, count := pts }.clearSkippedUpdates

def inited (w : PtsWaiter U Us) : Bool := decide (0 < w.good)

def setRequesting (w : PtsWaiter U Us) (isRequesting : Bool) : PtsWaiter U Us :=
  let w := { w with requesting := isRequesting }
  if isRequesting then w.clearSkippedUpdates else w

def current (w : PtsWaiter U Us) : Int := w.good

def queueKey (pts : Int) (skippedKey : Nat) : Nat :=
  -- uint64(uint32(pts)) << 32 | skippedKey
  (pts % 2 ^ 32).toNat <<< 32 ||| skippedKey

def nextSkippedKey (w : PtsWaiter U Us) : Nat := (w.skippedKey + 1) % 2 ^ 32

def ptsKey (w : PtsWaiter U Us) (queue : PtsSkippedQueue) (pts : Int) : Nat × PtsWaiter U Us :=
  let key := queueKey pts w.nextSkippedKey
  (key, { w with skippedKey := w.nextSkippedKey, queue := w.queue.insert key queue })

def setWaitingForSkipped (w : PtsWaiter U Us) (ms : Int) : PtsWaiter U Us :=
  -- A negative time stops the waiting; the timer itself is in `MainWidget`.
  { w with waitingForSkipped := decide (0 ≤ ms) }

def setWaitingForShortPoll (w : PtsWaiter U Us) (ms : Int) : PtsWaiter U Us :=
  { w with waitingForShortPoll := decide (0 ≤ ms) }

def skippedCall [Inhabited U] [Inhabited Us] (w : PtsWaiter U Us) (key : Nat) :
    PtsSkippedQueue → ApiCall U Us
  | .skippedUpdate => .applyUpdateNoPtsCheck (w.updateQueue.getD key default)
  | .skippedUpdates => .applyUpdatesNoPtsCheck (w.updatesQueue.getD key default)

def applySkippedUpdates [Inhabited U] [Inhabited Us] (w : PtsWaiter U Us) :
    PtsWaiter U Us × List (ApiCall U Us) :=
  if !w.waitingForSkipped then (w, [])
  else
    let w := w.setWaitingForSkipped (-1)
    if w.queue.isEmpty then (w, [])
    -- `_applySkippedLevel` is back to zero when the loop is over.
    else (w.clearSkippedUpdates, w.queue.toList.map fun e => w.skippedCall e.1 e.2)

def check (w : PtsWaiter U Us) (pts count : Int) : Bool × PtsWaiter U Us :=
  if !w.inited then (true, w.init pts)
  else
    let w := { w with last := max w.last pts, count := w.count + count }
    if w.last = w.count then (true, { w with good := w.last })
    else if w.last < w.count then (decide (count = 0), w.setWaitingForSkipped 1)
    else (decide (count = 0), w.setWaitingForSkipped kWaitForSkippedTimeout)

def save (w : PtsWaiter U Us) (pts : Int) : Payload U Us → PtsWaiter U Us
  | .update u =>
    let (key, w) := w.ptsKey .skippedUpdate pts
    { w with updateQueue := w.updateQueue.insert key u }
  | .updates us =>
    let (key, w) := w.ptsKey .skippedUpdates pts
    { w with updatesQueue := w.updatesQueue.insert key us }
  | .none => w

def updated (w : PtsWaiter U Us) (pts count : Int) (payload : Payload U Us) :
    Bool × PtsWaiter U Us :=
  if w.requesting || w.applySkippedLevel != 0 then (true, w)
  else if pts ≤ w.good ∧ 0 < count then (false, w)
  else
    let (ok, w) := w.check pts count
    if ok then (true, w) else (false, w.save pts payload)

/-- The three overloads of `updateAndApply`, told apart by the payload. -/
def updateAndApply [Inhabited U] [Inhabited Us] (w : PtsWaiter U Us) (pts count : Int)
    (payload : Payload U Us) : Bool × PtsWaiter U Us × List (ApiCall U Us) :=
  let (ok, w) := w.updated pts count payload
  if !ok then (false, w, [])
  else
    match payload.call with
    | none =>
      let (w, calls) := w.applySkippedUpdates
      (true, w, calls)
    | some call =>
      if !w.waitingForSkipped || w.queue.isEmpty then
        -- No need to put the update in the queue and back.
        (true, w, [call])
      else
        let (w, calls) := (w.save pts payload).applySkippedUpdates
        (true, w, calls)

end PtsWaiter

end TelegramClient
