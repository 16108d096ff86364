import Mathlib
import TelegramClient.Lib.Slots

/-! The event stream of `rpl/event_stream.h`: a vector of consumers through which values
are fired. A handler of a consumer may fire again, subscribe and terminate, so the fires
that have not ended yet form a stack. -/

namespace TelegramClient.Rpl

/-- A consumer, by its number in the order of subscription. -/
abbrev Consumer := Nat

/-- A run of `fire_forward` that has not ended: the number of its value, `end`, the place it
is at, the place the next kept consumer goes to (`result` of `std::remove_if`), and whether
the handler at its place is running. -/
structure Frame where
  fire : Nat
  stop : Nat
  first : Nat
  result : Nat
  inHandler : Bool
  deriving DecidableEq, Repr

/-- A fire owes its value to the consumers behind its place, and what stands between the
kept consumers and its place is overwritten or erased later. When a consumer goes from place
`i` to place `j`, the fire may lose it, pass it over, or give it a value it is not due. -/
def Frame.Upset (f : Frame) (i j : Nat) : Prop :=
  (f.result ≤ j ∧ j < f.first) ∨ (j ≤ f.first ∧ f.first < i ∧ i < f.stop) ∨
    (f.first < j ∧ j < f.stop ∧ f.stop ≤ i)

/-- A place of the vector without handlers, left by a move or by a failed `put_next`, is
`none`. The number of consumers, what was fired to whom and what was delivered are kept
for the statements only. -/
structure EventStream where
  consumers : List (Option Consumer) := []
  terminated : List Consumer := []
  frames : List Frame := []
  subscribed : Nat := 0
  fires : List (List Consumer) := []
  delivered : List (Nat × Consumer) := []
  deriving DecidableEq, Repr

inductive Action where
  | subscribe
  | terminate (c : Consumer)
  | fire
  | proceed
  | handled
  deriving DecidableEq, Repr

namespace EventStream

/-- Everyone who was subscribed and has not been terminated. -/
def subscribers (s : EventStream) : List Consumer :=
  (List.range s.subscribed).filter fun c => c ∉ s.terminated

/-- Code of the users runs: outside of every fire, or in the handler of the innermost one. -/
def userRuns (s : EventStream) : Bool :=
  match s.frames with
  | [] => true
  | f :: _ => f.inHandler

/-- The consumer whose handler `put_next` calls at a place. -/
def target (s : EventStream) (i : Nat) : Option Consumer :=
  s.consumers[i]?.join.filter fun c => c ∉ s.terminated

def subscribe (s : EventStream) : EventStream :=
  { s with consumers := s.consumers ++ [some s.subscribed], subscribed := s.subscribed + 1 }

def terminate (s : EventStream) (c : Consumer) : EventStream :=
  { s with terminated := c :: s.terminated }

/-- The beginning of `fire_forward`. -/
def fire (s : EventStream) : EventStream :=
  let fires := s.fires ++ [s.subscribers]
  if s.consumers = [] then { s with fires }
  else
    { s with
      fires
      frames := ⟨s.fires.length, s.consumers.length, 0, 0, false⟩ :: s.frames }

/-- The end of `fire_forward` from `staleFrom` on: the new consumers are copied behind the
kept ones, and the outermost fire erases the rest. -/
def finish (s : EventStream) (f : Frame) (rest : List Frame) (staleFrom : Nat) : EventStream :=
  let new := s.consumers.drop f.stop
  let consumers :=
    if staleFrom = f.stop then s.consumers
    else if rest = [] then s.consumers.take staleFrom ++ new
    else s.consumers.take staleFrom ++ new ++ s.consumers.drop (staleFrom + new.length)
  { s with consumers, frames := rest }

/-- `put_next` at the place of the innermost fire: it returns at once for a stale consumer,
which then loses its handlers, and calls the handler of any other. -/
def putNext (s : EventStream) (f : Frame) (rest : List Frame) : EventStream :=
  match s.target f.first with
  | some c =>
    { s with
      delivered := (f.fire, c) :: s.delivered
      frames := { f with inHandler := true } :: rest }
  | none =>
    let s := { s with consumers := s.consumers.set f.first none }
    if f.first + 1 = f.stop then s.finish f rest f.result
    else { s with frames := { f with first := f.first + 1 } :: rest }

/-- The handler has returned, so `put_next` returns `true`: the consumer is kept. -/
def keep (s : EventStream) (f : Frame) (rest : List Frame) : EventStream :=
  let s :=
    if f.result = f.first then s
    else { s with consumers := Slots.move s.consumers f.first f.result }
  if f.first + 1 = f.stop then s.finish f rest (f.result + 1)
  else
    { s with
      frames := { f with first := f.first + 1, result := f.result + 1, inHandler := false } :: rest }

def step (s : EventStream) : Action → Option EventStream
  | .subscribe => if s.userRuns then some s.subscribe else none
  | .terminate c => if s.userRuns ∧ c < s.subscribed then some (s.terminate c) else none
  | .fire => if s.userRuns then some s.fire else none
  | .proceed =>
    match s.frames with
    | [] => none
    | f :: rest => if f.inHandler then none else some (s.putNext f rest)
  | .handled =>
    match s.frames with
    | [] => none
    | f :: rest => if f.inHandler then some (s.keep f rest) else none

def run (s : EventStream) : List Action → Option EventStream
  | [] => some s
  | a :: as =>
    match s.step a with
    | none => none
    | some s => run s as

/-- Keeping its consumer, the innermost fire upsets one around it. -/
def MoveUpsets (s : EventStream) (f : Frame) (rest : List Frame) : Prop :=
  f.result ≠ f.first ∧ s.target f.first ≠ none ∧ ∃ outer ∈ rest, outer.Upset f.first f.result

/-- The innermost fire ends at this place, and copies a new consumer that it does not
overwrite where it was, or upsets a fire around it. -/
def CopyUpsets (s : EventStream) (f : Frame) (rest : List Frame) (staleFrom : Nat) : Prop :=
  rest ≠ [] ∧ f.first + 1 = f.stop ∧ staleFrom ≠ f.stop ∧
    ∃ i, f.stop ≤ i ∧ s.target i ≠ none ∧
      (staleFrom + (s.consumers.length - f.stop) ≤ i ∨
        ∃ outer ∈ rest, outer.Upset i (i - f.stop + staleFrom))

def Upsets (s : EventStream) (a : Action) : Prop :=
  ∃ (f : Frame) (rest : List Frame), s.frames = f :: rest ∧
    ((a = .handled ∧ (s.MoveUpsets f rest ∨ s.CopyUpsets f rest (f.result + 1))) ∨
      (a = .proceed ∧ s.target f.first = none ∧ s.CopyUpsets f rest f.result))

/-- A step in which no nested fire upsets one around it. -/
def SparingStep (s s' : EventStream) : Prop := ∃ a : Action, s.step a = some s' ∧ ¬s.Upsets a

/-- What a stream owes its consumers. A value fired as number `i` is for those that were
subscribed then, `fires[i]`. -/
structure Delivers (s : EventStream) : Prop where
  /-- Nobody receives a value twice. -/
  once : s.delivered.Nodup
  /-- Nobody receives a value from before it was subscribed. -/
  entitled : ∀ (i : Nat) (c : Consumer), (i, c) ∈ s.delivered →
    ∃ due, s.fires[i]? = some due ∧ c ∈ due
  /-- When a later consumer has received the value, an earlier one has too, or it was
  terminated. -/
  inTurn : ∀ (i : Nat) (due : List Consumer) (c c' : Consumer), s.fires[i]? = some due →
    [c, c'].Sublist due → (i, c') ∈ s.delivered → (i, c) ∈ s.delivered ∨ c ∈ s.terminated
  /-- When a fire has ended, everyone has received the value, or was terminated. -/
  complete : ∀ (i : Nat) (due : List Consumer), s.fires[i]? = some due →
    (∀ f ∈ s.frames, f.fire ≠ i) → ∀ c ∈ due, (i, c) ∈ s.delivered ∨ c ∈ s.terminated
  /-- Whoever has not been terminated is in the vector once. -/
  stored : ∀ c < s.subscribed, c ∉ s.terminated → s.consumers.count (some c) = 1

end EventStream

end TelegramClient.Rpl
