import Mathlib

/-! The unread counters of `history.cpp` and the totals of `data_session.cpp` they are
summed up in. A history passes deltas to its session; the badge shows the totals. -/

namespace TelegramClient.Dialogs

/-- The totals of `Data::Session`. -/
structure Session where
  unreadFull : Int := 0
  unreadMuted : Int := 0
  unreadEntriesFull : Int := 0
  unreadEntriesMuted : Int := 0
  deriving DecidableEq, Repr

namespace Session

def unreadIncrement (s : Session) (count : Int) (muted : Bool) : Session :=
  if count = 0 then s
  else
    { s with
      unreadFull := s.unreadFull + count
      unreadMuted := if muted then s.unreadMuted + count else s.unreadMuted }

def unreadMuteChanged (s : Session) (count : Int) (muted : Bool) : Session :=
  { s with unreadMuted := if muted then s.unreadMuted + count else s.unreadMuted - count }

def unreadEntriesChanged (s : Session) (withUnreadDelta mutedWithUnreadDelta : Int) : Session :=
  if withUnreadDelta = 0 ∧ mutedWithUnreadDelta = 0 then s
  else
    { s with
      unreadEntriesFull := s.unreadEntriesFull + withUnreadDelta
      unreadEntriesMuted := s.unreadEntriesMuted + mutedWithUnreadDelta }

/-- The four totals as an element of a group. -/
def totals (s : Session) : Int × Int × Int × Int :=
  (s.unreadFull, s.unreadMuted, s.unreadEntriesFull, s.unreadEntriesMuted)

@[simp] theorem totals_unreadIncrement (s : Session) (count : Int) (muted : Bool) :
    (s.unreadIncrement count muted).totals =
      s.totals + (count, if muted then count else 0, 0, 0) := by
  by_cases h : count = 0 <;> cases muted <;> simp [unreadIncrement, totals, h]

@[simp] theorem totals_unreadMuteChanged (s : Session) (count : Int) (muted : Bool) :
    (s.unreadMuteChanged count muted).totals =
      s.totals + (0, if muted then count else -count, 0, 0) := by
  cases muted <;> simp [unreadMuteChanged, totals, sub_eq_add_neg]

@[simp] theorem totals_unreadEntriesChanged (s : Session) (full muted : Int) :
    (s.unreadEntriesChanged full muted).totals = s.totals + (0, 0, full, muted) := by
  by_cases h : full = 0 ∧ muted = 0
  · obtain ⟨rfl, rfl⟩ := h
    simp [unreadEntriesChanged, totals]
  · simp [unreadEntriesChanged, totals, h]

end Session

/-- What a history keeps of its unread messages. `knownCount` is `_unreadCount`, and
`inChatList` says that the links of the list of all chats are not empty. -/
structure History where
  knownCount : Option Int := none
  unreadMark : Bool := false
  mute : Bool := false
  inChatList : Bool := false
  deriving DecidableEq, Repr

namespace History

def unreadCount (h : History) : Int :=
  h.knownCount.getD 0

def historiesUnreadCount (h : History) : Int :=
  if h.unreadCount = 0 ∧ h.unreadMark then 1 else h.unreadCount

def setUnreadCount (h : History) (owner : Session) (newUnreadCount : Int) : History × Session :=
  if h.knownCount = some newUnreadCount then (h, owner)
  else
    let wasUnread : Bool := h.unreadMark || h.unreadCount != 0
    let unreadCountDelta := h.knownCount.map (newUnreadCount - ·)
    let unreadMarkDelta : Int :=
      if h.unreadMark then
        let was : Bool := h.knownCount.any (0 < ·)
        let now : Bool := 0 < newUnreadCount
        if was != now then if was then 1 else -1 else 0
      else 0
    let h := { h with knownCount := some newUnreadCount }
    if h.inChatList then
      let delta := unreadMarkDelta + unreadCountDelta.getD newUnreadCount
      let owner := owner.unreadIncrement delta h.mute
      let nowUnread : Bool := 0 < newUnreadCount || h.unreadMark
      let entriesDelta : Int :=
        if wasUnread && !nowUnread then -1 else if nowUnread && !wasUnread then 1 else 0
      (h, owner.unreadEntriesChanged entriesDelta (if h.mute then entriesDelta else 0))
    else (h, owner)

/-- `clearUnreadOnClientSide` is what the function of this name returns. -/
def setUnreadMark (h : History) (owner : Session) (unread clearUnreadOnClientSide : Bool) :
    History × Session :=
  let unread := if clearUnreadOnClientSide then false else unread
  if h.unreadMark = unread then (h, owner)
  else
    let h := { h with unreadMark := unread }
    if h.unreadCount = 0 ∧ h.inChatList then
      let delta : Int := if h.unreadMark then 1 else -1
      let owner := owner.unreadIncrement delta h.mute
      (h, owner.unreadEntriesChanged delta (if h.mute then delta else 0))
    else (h, owner)

def changeUnreadCount (h : History) (owner : Session) (delta : Int) : History × Session :=
  match h.knownCount with
  | some count => h.setUnreadCount owner (max (count + delta) 0)
  | none => (h, owner)

def changeMute (h : History) (owner : Session) (newMute : Bool) : History × Session :=
  if h.mute = newMute then (h, owner)
  else
    let h := { h with mute := newMute }
    let count := h.historiesUnreadCount
    if h.inChatList ∧ count ≠ 0 then
      let owner := owner.unreadMuteChanged count h.mute
      (h, owner.unreadEntriesChanged 0 (if h.mute then 1 else -1))
    else (h, owner)

def changedInChatListHook (h : History) (owner : Session) (added : Bool) : Session :=
  let delta := h.historiesUnreadCount * (if added then 1 else -1)
  if delta = 0 then owner
  else
    let owner := owner.unreadIncrement delta h.mute
    let entriesDelta : Int := if added then 1 else -1
    owner.unreadEntriesChanged entriesDelta (if h.mute then entriesDelta else 0)

def addToChatList (h : History) (owner : Session) : History × Session :=
  if h.inChatList then (h, owner)
  else
    let h := { h with inChatList := true }
    (h, h.changedInChatListHook owner true)

def removeFromChatList (h : History) (owner : Session) : History × Session :=
  if h.inChatList then
    let h := { h with inChatList := false }
    (h, h.changedInChatListHook owner false)
  else (h, owner)

/-- What the four totals get from a shown count and a number of entries. -/
def weighed (mute : Bool) (shown entries : Int) : Int × Int × Int × Int :=
  (shown, if mute then shown else 0, entries, if mute then entries else 0)

/-- The history has unread messages or a mark. -/
def hasUnread (h : History) : Bool :=
  0 < h.unreadCount || h.unreadMark

/-- The number of unread entries the history makes. -/
def entries (h : History) : Int :=
  if h.hasUnread then 1 else 0

theorem entries_iff (h : History) :
    h.entries = if 0 < h.unreadCount ∨ h.unreadMark then 1 else 0 := by
  simp [entries, hasUnread]

/-- What a history adds to each of the four totals. -/
def badge (h : History) : Int × Int × Int × Int :=
  if h.inChatList then weighed h.mute h.historiesUnreadCount h.entries else 0

/-- A known count is a number of messages. -/
def Counted (h : History) : Prop :=
  0 ≤ h.unreadCount

/-- The session got the difference of the badges. -/
def Passed (h : History) (owner : Session) (r : History × Session) : Prop :=
  r.2.totals = owner.totals + (r.1.badge - h.badge)

theorem weighed_sub (mute : Bool) (a b c d : Int) :
    weighed mute a b - weighed mute c d = weighed mute (a - c) (b - d) := by
  cases mute <;> simp [weighed]

theorem totals_weighed (owner : Session) (mute : Bool) (a b : Int) :
    ((owner.unreadIncrement a mute).unreadEntriesChanged b (if mute then b else 0)).totals =
      owner.totals + weighed mute a b := by
  cases mute <;> simp [weighed, add_assoc]

theorem passed_refl (h : History) (owner : Session) : h.Passed owner (h, owner) := by
  simp [Passed]

theorem passed_unlisted {h h' : History} (owner : Session) (hh : h.inChatList = false)
    (hh' : h'.inChatList = false) : h.Passed owner (h', owner) := by
  simp [Passed, badge, hh, hh']

theorem passed_listed {h h' : History} {owner : Session} {a b : Int}
    (hl : h.inChatList) (hl' : h'.inChatList) (hm : h'.mute = h.mute)
    (ha : a = h'.historiesUnreadCount - h.historiesUnreadCount)
    (hb : b = h'.entries - h.entries) :
    h.Passed owner
      (h', (owner.unreadIncrement a h.mute).unreadEntriesChanged b
        (if h.mute then b else 0)) := by
  simp only [Passed, badge, hl, hl', if_true, hm, weighed_sub, ← ha, ← hb, totals_weighed]

@[simp] theorem unreadCount_setUnreadCount (h : History) (owner : Session) (n : Int) :
    (h.setUnreadCount owner n).1.unreadCount = n := by
  by_cases hk : h.knownCount = some n
  · simp [setUnreadCount, hk, unreadCount]
  · by_cases hl : h.inChatList <;> simp [setUnreadCount, hk, hl, unreadCount]

theorem setUnreadCount_passed {h : History} (owner : Session) {n : Int} (hh : h.Counted)
    (hn : 0 ≤ n) : h.Passed owner (h.setUnreadCount owner n) := by
  by_cases hk : h.knownCount = some n
  · simpa [setUnreadCount, hk] using h.passed_refl owner
  obtain ⟨known, mark, mute, listed⟩ := h
  cases listed with
  | false =>
    simp only [setUnreadCount, hk]
    apply passed_unlisted <;> simp
  | true =>
    simp only [setUnreadCount, hk, if_false, if_true]
    have hc : 0 ≤ known.getD 0 := hh
    apply passed_listed
    · rfl
    · rfl
    · rfl
    · -- a mark counts as one exactly while the count is zero or unknown
      cases known <;> cases mark <;> simp [historiesUnreadCount, unreadCount] at hc ⊢ <;>
        split <;> omega
    · cases mark <;> simp [entries_iff, unreadCount] <;> omega

theorem setUnreadMark_passed {h : History} (owner : Session) (unread clearOnClient : Bool)
    (hh : h.Counted) : h.Passed owner (h.setUnreadMark owner unread clearOnClient) := by
  simp only [setUnreadMark]
  generalize (if clearOnClient then false else unread) = mark
  by_cases hm : h.unreadMark = mark
  · simpa [hm] using h.passed_refl owner
  obtain ⟨known, oldMark, mute, listed⟩ := h
  have hc : 0 ≤ known.getD 0 := hh
  simp only [hm, if_false, unreadCount]
  cases listed with
  | false =>
    simp only [Bool.false_eq_true, and_false, if_false]
    apply passed_unlisted <;> rfl
  | true =>
    simp only [and_true]
    by_cases hz : known.getD 0 = 0
    · simp only [hz, if_true]
      apply passed_listed
      · rfl
      · rfl
      · rfl
      · cases mark <;> simp_all [historiesUnreadCount, unreadCount]
      · cases mark <;> simp_all [entries, hasUnread, unreadCount]
    · -- behind a count that is not zero the mark is not seen
      have hpos : 0 < known.getD 0 := by omega
      simp [Passed, badge, historiesUnreadCount, entries, hasUnread, unreadCount, hz, hpos]

theorem changeUnreadCount_passed {h : History} (owner : Session) (delta : Int)
    (hh : h.Counted) : h.Passed owner (h.changeUnreadCount owner delta) := by
  cases hk : h.knownCount with
  | none => simpa [changeUnreadCount, hk] using h.passed_refl owner
  | some count => simpa [changeUnreadCount, hk] using setUnreadCount_passed owner hh (by simp)

theorem entries_eq {h : History} (hh : h.Counted) :
    h.entries = if h.historiesUnreadCount = 0 then 0 else 1 := by
  have hc : 0 ≤ h.unreadCount := hh
  by_cases hz : h.unreadCount = 0
  · cases hm : h.unreadMark <;> simp [entries, hasUnread, historiesUnreadCount, hz, hm]
  · have hpos : 0 < h.unreadCount := by omega
    simp [entries, hasUnread, historiesUnreadCount, hz, hpos]

theorem weighed_true_sub (a b : Int) : weighed true a b - weighed false a b = (0, a, 0, b) := by
  simp [weighed]

theorem weighed_false_sub (a b : Int) :
    weighed false a b - weighed true a b = (0, -a, 0, -b) := by
  simp [weighed]

theorem changeMute_passed {h : History} (owner : Session) (newMute : Bool)
    (hh : h.Counted) : h.Passed owner (h.changeMute owner newMute) := by
  by_cases hm : h.mute = newMute
  · simpa [changeMute, hm] using h.passed_refl owner
  have he := entries_eq hh
  obtain ⟨known, mark, mute, listed⟩ := h
  cases listed with
  | false =>
    simp only [changeMute, hm, if_false]
    apply passed_unlisted <;> simp
  | true =>
    have hshown : (History.mk known mark newMute true).historiesUnreadCount =
      (History.mk known mark mute true).historiesUnreadCount := rfl
    have hbadge : ∀ m, (History.mk known mark m true).badge =
        weighed m (History.mk known mark mute true).historiesUnreadCount
          (History.mk known mark mute true).entries := fun _ => rfl
    simp only [changeMute, hm, if_false, true_and, hshown]
    by_cases hz : (History.mk known mark mute true).historiesUnreadCount = 0
    · simp [hz, Passed, hbadge, he, weighed]
    · cases mute <;> cases newMute <;>
        simp_all [Passed, weighed_true_sub, weighed_false_sub, add_assoc]

/-- The hook passes the whole badge that the history has in the list. -/
theorem changedInChatListHook_totals {h : History} (owner : Session) (added : Bool)
    (hh : h.Counted) :
    (h.changedInChatListHook owner added).totals =
      if added then owner.totals + weighed h.mute h.historiesUnreadCount h.entries
      else owner.totals - weighed h.mute h.historiesUnreadCount h.entries := by
  have he := entries_eq hh
  by_cases hz : h.historiesUnreadCount = 0
  · have hzero : weighed h.mute 0 0 = 0 := by simp [weighed]
    cases added <;> simp [changedInChatListHook, he, hz, hzero]
  · cases added <;> cases hm : h.mute <;>
      simp [changedInChatListHook, he, hz, hm, weighed, add_assoc, sub_eq_add_neg]

theorem addToChatList_passed {h : History} (owner : Session) (hh : h.Counted) :
    h.Passed owner (h.addToChatList owner) := by
  cases hl : h.inChatList with
  | true => simpa [addToChatList, hl] using h.passed_refl owner
  | false =>
    have hook := changedInChatListHook_totals (h := { h with inChatList := true }) owner true hh
    have hbadge : h.badge = 0 := by simp [badge, hl]
    simp only [Passed, addToChatList, hl, hook, hbadge, if_true, sub_zero, Bool.false_eq_true,
      if_false]
    rfl

theorem removeFromChatList_passed {h : History} (owner : Session) (hh : h.Counted) :
    h.Passed owner (h.removeFromChatList owner) := by
  cases hl : h.inChatList with
  | false => simpa [removeFromChatList, hl] using h.passed_refl owner
  | true =>
    have hook := changedInChatListHook_totals (h := { h with inChatList := false }) owner false hh
    have hbadge : h.badge = weighed h.mute h.historiesUnreadCount h.entries := by
      simp [badge, hl]
    have hgone : ({ h with inChatList := false } : History).badge = 0 := rfl
    simp only [Passed, removeFromChatList, hl, hook, hbadge, hgone, if_true, Bool.false_eq_true,
      if_false, zero_sub, ← sub_eq_add_neg]
    rfl

end History

/-- A call on the history of a peer. -/
inductive Action (Peer : Type) where
  | setUnreadCount (peer : Peer) (newUnreadCount : Int)
  | changeUnreadCount (peer : Peer) (delta : Int)
  | setUnreadMark (peer : Peer) (unread clearUnreadOnClientSide : Bool)
  | changeMute (peer : Peer) (newMute : Bool)
  | addToChatList (peer : Peer)
  | removeFromChatList (peer : Peer)
  deriving DecidableEq, Repr

namespace Action

variable {Peer : Type}

def peer : Action Peer → Peer
  | setUnreadCount peer _ => peer
  | changeUnreadCount peer _ => peer
  | setUnreadMark peer _ _ => peer
  | changeMute peer _ => peer
  | addToChatList peer => peer
  | removeFromChatList peer => peer

def call : Action Peer → History → Session → History × Session
  | setUnreadCount _ newUnreadCount, h, owner => h.setUnreadCount owner newUnreadCount
  | changeUnreadCount _ delta, h, owner => h.changeUnreadCount owner delta
  | setUnreadMark _ unread clear, h, owner => h.setUnreadMark owner unread clear
  | changeMute _ newMute, h, owner => h.changeMute owner newMute
  | addToChatList _, h, owner => h.addToChatList owner
  | removeFromChatList _, h, owner => h.removeFromChatList owner

/-- A count that is set is a number of messages. -/
def Counting : Action Peer → Prop
  | setUnreadCount _ newUnreadCount => 0 ≤ newUnreadCount
  | _ => True

theorem call_passed {a : Action Peer} {h : History} (owner : Session) (ha : a.Counting)
    (hh : h.Counted) : h.Passed owner (a.call h owner) := by
  cases a with
  | setUnreadCount _ n => exact History.setUnreadCount_passed owner hh ha
  | changeUnreadCount _ delta => exact History.changeUnreadCount_passed owner delta hh
  | setUnreadMark _ unread clear => exact History.setUnreadMark_passed owner unread clear hh
  | changeMute _ newMute => exact History.changeMute_passed owner newMute hh
  | addToChatList _ => exact History.addToChatList_passed owner hh
  | removeFromChatList _ => exact History.removeFromChatList_passed owner hh

theorem call_counted {a : Action Peer} {h : History} (owner : Session) (ha : a.Counting)
    (hh : h.Counted) : (a.call h owner).1.Counted := by
  cases a with
  | setUnreadCount _ n => simpa [call, History.Counted, Counting] using ha
  | changeUnreadCount _ delta =>
    cases hk : h.knownCount with
    | none => simpa [call, History.changeUnreadCount, hk] using hh
    | some count => simp [call, History.changeUnreadCount, hk, History.Counted]
  | setUnreadMark _ unread clear =>
    simp only [call, History.setUnreadMark]
    generalize (if clear then false else unread) = mark
    split
    · exact hh
    · split <;> exact hh
  | changeMute _ newMute =>
    simp only [call, History.changeMute]
    split
    · exact hh
    · split <;> exact hh
  | addToChatList _ =>
    simp only [call, History.addToChatList]
    split <;> exact hh
  | removeFromChatList _ =>
    simp only [call, History.removeFromChatList]
    split <;> exact hh

end Action

/-- The histories of a session. -/
structure Chats (Peer : Type) where
  histories : Peer → History := fun _ => {}
  owner : Session := {}

namespace Chats

variable {Peer : Type} [DecidableEq Peer]

def step (s : Chats Peer) (a : Action Peer) : Chats Peer :=
  let r := a.call (s.histories a.peer) s.owner
  { histories := Function.update s.histories a.peer r.1, owner := r.2 }

def run (s : Chats Peer) (actions : List (Action Peer)) : Chats Peer :=
  actions.foldl step s

/-- The totals are those of the histories. -/
structure Exact (peers : Finset Peer) (s : Chats Peer) : Prop where
  counted : ∀ p, (s.histories p).Counted
  totals : s.owner.totals = ∑ p ∈ peers, (s.histories p).badge

theorem Exact.step {peers : Finset Peer} {s : Chats Peer} {a : Action Peer}
    (h : s.Exact peers) (hp : a.peer ∈ peers) (ha : a.Counting) : (s.step a).Exact peers := by
  constructor
  · intro p
    by_cases hpa : p = a.peer
    · subst hpa
      simpa [Chats.step] using Action.call_counted s.owner ha (h.counted _)
    · simpa [Chats.step, hpa] using h.counted p
  · have hpassed := Action.call_passed s.owner ha (h.counted a.peer)
    have hsum := Finset.add_sum_erase peers (fun p => (s.histories p).badge) hp
    have hsum' := Finset.add_sum_erase peers (fun p => ((s.step a).histories p).badge) hp
    have hrest : ∑ p ∈ peers.erase a.peer, ((s.step a).histories p).badge =
        ∑ p ∈ peers.erase a.peer, (s.histories p).badge := by
      apply Finset.sum_congr rfl
      intro p hpe
      simp [Chats.step, Finset.ne_of_mem_erase hpe]
    have hat : (s.step a).histories a.peer = (a.call (s.histories a.peer) s.owner).1 := by
      simp [Chats.step]
    rw [← hsum', hrest, hat]
    show (a.call (s.histories a.peer) s.owner).2.totals = _
    rw [hpassed, h.totals, ← hsum]
    abel

theorem Exact.run {peers : Finset Peer} {s : Chats Peer} {actions : List (Action Peer)}
    (h : s.Exact peers) (hp : ∀ a ∈ actions, a.peer ∈ peers) (ha : ∀ a ∈ actions, a.Counting) :
    (s.run actions).Exact peers := by
  induction actions generalizing s with
  | nil => exact h
  | cons a as ih =>
    apply ih
    · exact h.step (hp a (by simp)) (ha a (by simp))
    · intro b hb
      exact hp b (by simp [hb])
    · intro b hb
      exact ha b (by simp [hb])

omit [DecidableEq Peer] in
theorem exact_start (peers : Finset Peer) : Exact peers {} := by
  constructor
  · intro p
    simp [History.Counted, History.unreadCount]
  · simp [History.badge]
    rfl

/-- Along a run from no chats at all the badge is exact: the deltas that were passed sum up
to what the histories in the list of all chats show. -/
theorem badge_exact (peers : Finset Peer) (actions : List (Action Peer))
    (hp : ∀ a ∈ actions, a.peer ∈ peers) (ha : ∀ a ∈ actions, a.Counting) :
    let s := run {} actions
    let listed := peers.filter fun p => (s.histories p).inChatList
    let muted := listed.filter fun p => (s.histories p).mute
    s.owner.unreadFull = ∑ p ∈ listed, (s.histories p).historiesUnreadCount ∧
      s.owner.unreadMuted = ∑ p ∈ muted, (s.histories p).historiesUnreadCount ∧
      s.owner.unreadEntriesFull = (listed.filter fun p => (s.histories p).hasUnread).card ∧
      s.owner.unreadEntriesMuted = (muted.filter fun p => (s.histories p).hasUnread).card := by
  intro s listed muted
  have hsum : s.owner.totals = ∑ p ∈ peers, (s.histories p).badge :=
    ((exact_start peers).run hp ha).totals
  simp only [Session.totals, Prod.ext_iff, Prod.fst_sum, Prod.snd_sum] at hsum
  obtain ⟨hfull, hmuted, hentries, hentriesMuted⟩ := hsum
  refine ⟨?_, ?_, ?_, ?_⟩
  · rw [hfull, Finset.sum_filter]
    apply Finset.sum_congr rfl
    intro p _
    cases hl : (s.histories p).inChatList <;> simp [History.badge, History.weighed, hl]
  · rw [hmuted, Finset.sum_filter, Finset.sum_filter]
    apply Finset.sum_congr rfl
    intro p _
    cases hl : (s.histories p).inChatList <;> simp [History.badge, History.weighed, hl]
  · rw [hentries, Finset.card_filter, Finset.sum_filter]
    push_cast
    apply Finset.sum_congr rfl
    intro p _
    cases hl : (s.histories p).inChatList <;>
      simp [History.badge, History.weighed, History.entries, hl]
  · rw [hentriesMuted, Finset.card_filter, Finset.sum_filter, Finset.sum_filter]
    push_cast
    apply Finset.sum_congr rfl
    intro p _
    cases hl : (s.histories p).inChatList <;>
      simp [History.badge, History.weighed, History.entries, hl]

/-- A muted chat with a mark, and a chat whose count goes up and down. -/
theorem badge_exact_two :
    let s : Chats Nat := run {} [.setUnreadMark 0 true false, .addToChatList 0,
      .changeMute 0 true, .setUnreadCount 1 5, .addToChatList 1, .changeUnreadCount 1 (-2)]
    s.owner.unreadFull = 4 ∧
      s.owner.unreadFull =
        ∑ p ∈ ({0, 1} : Finset Nat).filter fun p => (s.histories p).inChatList,
          (s.histories p).historiesUnreadCount :=
  ⟨by decide, (badge_exact {0, 1} _ (by decide) (by simp [Action.Counting])).1⟩

/-- A negative count is shown by the first two totals and is no entry, and when it is taken
back the entries fall below zero. -/
theorem negative_count_drifts :
    let s : Chats Unit := run {} [.addToChatList (), .setUnreadCount () (-1), .setUnreadCount () 0]
    s.owner.unreadEntriesFull = -1 ∧
      (({()} : Finset Unit).filter fun p => (s.histories p).hasUnread).card = 0 := by
  decide

end Chats

end TelegramClient.Dialogs
