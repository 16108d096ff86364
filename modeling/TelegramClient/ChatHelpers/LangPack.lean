import TelegramClient.ChatHelpers.EmojiKeywords

/-! How a pack of emoji keywords is refreshed (`EmojiKeywords::LangPack` of
`chat_helpers/emoji_keywords.cpp`): a state that is changed from the answers to its requests, from
what is done in the background, and when there is another api. -/

namespace TelegramClient.ChatHelpers

open Lang

def kRefreshEach : Int := 60 * 60 * 1000

inductive State where
  | readingCache
  | pendingRequest
  | requested
  | refreshed
  deriving DecidableEq

structure Difference where
  langCode : QString
  version : Int32
  keywords : List EmojiKeyword

inductive Request where
  | getEmojiKeywordsDifference (version : Int32)
  | getEmojiKeywords

/-- What is called when the background task that has the guard is done. -/
inductive Callback (Emoji : Type) where
  | cacheRead
  | applied (data : LangPackData Emoji)

structure LangPack (Emoji : Type) where
  id : QString
  state : State := .readingCache
  data : LangPackData Emoji := {}
  lastRefreshTime : Int := 0
  requestId : Nat := 0
  /-- The callback with the last guard: making another one drops it. -/
  guard : Option (Callback Emoji) := some .cacheRead

/-- A pack, the api and the requests that it has sent. The pack is in `_data` or, when its
language is not in the list of the server, in `_notUsedData`. -/
structure System (Emoji : Type) where
  pack : LangPack Emoji
  api : Bool
  isUsed : Bool := true
  requests : List (Nat × Request) := []
  lastRequestId : Nat := 0

variable {Emoji : Type} (env : Environment Emoji) (s : System Emoji)

def System.setState (state : State) : System Emoji := { s with pack := { s.pack with state := state } }

def System.send : System Emoji :=
  let id := s.lastRequestId + 1
  let request := if s.pack.data.version > 0 then .getEmojiKeywordsDifference s.pack.data.version
    else .getEmojiKeywords
  { s with
    pack := { s.pack with requestId := id }
    requests := s.requests ++ [(id, request)]
    lastRequestId := id }

def System.refresh (now : Int) : System Emoji :=
  if s.pack.state ≠ .refreshed then s
  else if 0 < s.pack.lastRefreshTime ∧ now - s.pack.lastRefreshTime < kRefreshEach then s
  else if s.api = false then s.setState .pendingRequest
  else (s.setState .requested).send

def System.applyData (data : LangPackData Emoji) : System Emoji :=
  { s with pack := { s.pack with data := data, state := .refreshed } }

def System.applyDifference (result : Difference) : System Emoji :=
  if result.langCode ≠ s.pack.id then
    { s with pack := { s.pack with
      data := { s.pack.data with version := 0 }
      state := .refreshed } }
  else if result.keywords = [] ∧ s.pack.data.version ≥ result.version then s.setState .refreshed
  else
    { s with pack := { s.pack with guard := some (.applied
      (ChatHelpers.applyDifference env s.pack.data result.keywords result.version)) } }

/-- An answer or a failure: what both handlers do first. -/
def System.received (id : Nat) (now : Int) : System Emoji :=
  { s with
    pack := { s.pack with requestId := 0, lastRefreshTime := now }
    requests := s.requests.filter fun request => request.1 ≠ id }

def System.apiChanged (now : Int) : System Emoji :=
  if s.pack.state = .requested ∧ s.api = false then
    ({ s with pack := { s.pack with requestId := 0, state := .refreshed } } : System Emoji).refresh now
  else if s.pack.state ≠ .pendingRequest then s
  else (s.setState .refreshed).refresh now

def System.tellApiChanged (now : Int) : System Emoji := if s.isUsed then s.apiChanged now else s

/-! ### What happens to a pack -/

inductive Event (Emoji : Type) where
  | refresh (now : Int)
  | cacheRead (result : LangPackData Emoji) (now : Int)
  | done (id : Nat) (result : Difference) (now : Int)
  | fail (id : Nat) (now : Int)
  | applied
  | apiCreated (now : Int)
  | apiDestroyed (now : Int)
  | setAside
  | takenBack

def System.dropGuard : System Emoji := { s with pack := { s.pack with guard := none } }

def System.hasRequest (id : Nat) : Bool := s.requests.any fun request => request.1 = id

/-- The requests are canceled with the api that they were sent by. -/
def System.step : Event Emoji → Option (System Emoji)
  | .refresh now => if s.isUsed then some (s.refresh now) else none
  | .cacheRead result now =>
    match s.pack.guard with
    | some .cacheRead => some ((s.dropGuard.applyData result).refresh now)
    | _ => none
  | .done id result now =>
    if s.hasRequest id then some ((s.received id now).applyDifference env result) else none
  | .fail id now => if s.hasRequest id then some (s.received id now) else none
  | .applied =>
    match s.pack.guard with
    | some (.applied data) => some (s.dropGuard.applyData data)
    | _ => none
  | .apiCreated now =>
    if s.api then none else some (({ s with api := true } : System Emoji).tellApiChanged now)
  | .apiDestroyed now =>
    if s.api then some (({ s with api := false, requests := [] } : System Emoji).tellApiChanged now)
    else none
  | .setAside => if s.isUsed then some { s with isUsed := false } else none
  | .takenBack => if s.isUsed then none else some { s with isUsed := true }

/-- The states that a new pack gets to by events that are allowed. -/
inductive Reachable (id : QString) (allowed : System Emoji → Event Emoji → Prop) :
    System Emoji → Prop
  | start (api : Bool) : Reachable id allowed { pack := { id := id }, api := api }
  | step {s s' : System Emoji} {e : Event Emoji} (h : Reachable id allowed s) (he : allowed s e)
      (hstep : s.step env e = some s') : Reachable id allowed s'

def System.IsApplying : Prop := ∃ data, s.pack.guard = some (.applied data)

def System.IsDue (now : Int) : Prop :=
  0 < s.pack.lastRefreshTime → kRefreshEach ≤ now - s.pack.lastRefreshTime

/-- Each state waits for something, and when there is nothing to wait for, a request is sent. -/
structure System.NeverStalls : Prop where
  requested : s.pack.state = .requested → s.requests ≠ [] ∨ s.IsApplying
  readingCache : s.pack.state = .readingCache → s.pack.guard = some .cacheRead
  pendingRequest : s.pack.state = .pendingRequest → s.api = false
  sends : ∀ now, s.api = true → s.requests = [] → s.pack.guard = none → s.IsDue now →
    (s.refresh now).requests ≠ []

/-- The last request does not fail, and the api does not change while a pack that waits for it is
set aside. -/
def Regular (s : System Emoji) : Event Emoji → Prop
  | .fail id _ => s.pack.state = .requested → (∃ request ∈ s.requests, request.1 ≠ id) ∨ s.IsApplying
  | .apiCreated _ => s.isUsed = false → s.pack.state ≠ .pendingRequest
  | .apiDestroyed _ => s.isUsed = false → s.pack.state = .requested → s.IsApplying
  | _ => True

/-! ### Nothing stalls -/

/-- What all steps but irregular ones keep. -/
structure System.IsLive : Prop where
  requested : s.pack.state = .requested → s.requests ≠ [] ∨ s.IsApplying
  readingCache : s.pack.state = .readingCache → s.pack.guard = some .cacheRead ∧ s.requests = []
  pendingRequest : s.pack.state = .pendingRequest → s.api = false

variable {s} {s' : System Emoji} {e : Event Emoji} {now : Int}

theorem System.isLive_of_refreshed (h : s.pack.state = .refreshed) : s.IsLive := by
  constructor
  · simp [h]
  · simp [h]
  · simp [h]

/-- A refresh sends a request, or it is too early, or there is no api. -/
theorem System.refresh_isLive (h : s.IsLive) (now : Int) : (s.refresh now).IsLive := by
  rw [refresh]
  split
  · exact h
  next hstate =>
    split
    · exact h
    · split
      next hapi =>
        constructor
        · simp [setState]
        · simp [setState]
        · intro _
          exact hapi
      next hapi =>
        constructor
        · intro _
          left
          simp [send]
        · simp [send, setState]
        · simp [send, setState]

theorem System.refresh_sends (hstate : s.pack.state = .refreshed) (hapi : s.api = true)
    (hdue : s.IsDue now) : (s.refresh now).requests ≠ [] := by
  have hlate : ¬ (0 < s.pack.lastRefreshTime ∧ now - s.pack.lastRefreshTime < kRefreshEach) := by
    intro h
    have := hdue h.1
    omega
  rw [refresh, if_neg (by simp [hstate]), if_neg hlate, if_neg (by simp [hapi])]
  simp [send]

theorem System.IsLive.moves (h : s.IsLive) : s.NeverStalls := by
  refine ⟨h.requested, fun hstate => (h.readingCache hstate).1, h.pendingRequest, ?_⟩
  intro now hapi hrequests hguard hdue
  apply refresh_sends _ hapi hdue
  cases hstate : s.pack.state with
  | readingCache =>
    have hread := (h.readingCache hstate).1
    rw [hguard] at hread
    cases hread
  | pendingRequest =>
    have hnone := h.pendingRequest hstate
    rw [hapi] at hnone
    cases hnone
  | requested =>
    cases h.requested hstate with
    | inl hsent => exact absurd hrequests hsent
    | inr happlying =>
      obtain ⟨data, hdata⟩ := happlying
      rw [hguard] at hdata
      cases hdata
  | refreshed => rfl

theorem System.applyDifference_isLive (hstate : s.pack.state ≠ .readingCache)
    (hpending : s.pack.state = .pendingRequest → s.api = false) (result : Difference) :
    (s.applyDifference env result).IsLive := by
  rw [applyDifference]
  split
  · exact isLive_of_refreshed rfl
  · split
    · exact isLive_of_refreshed rfl
    · constructor
      · intro _
        exact .inr ⟨_, rfl⟩
      · intro h
        exact absurd h hstate
      · exact hpending

theorem System.apiChanged_isLive (hrequested : s.pack.state = .requested → s.api = true →
      s.requests ≠ [] ∨ s.IsApplying)
    (hreading : s.pack.state = .readingCache → s.pack.guard = some .cacheRead ∧ s.requests = []) :
    (s.apiChanged now).IsLive := by
  rw [apiChanged]
  split
  · exact refresh_isLive (isLive_of_refreshed rfl) now
  next hlost =>
    split
    next hstate =>
      constructor
      · intro h
        exact hrequested h (by simpa [h] using hlost)
      · exact hreading
      · intro h
        exact absurd h hstate
    · exact refresh_isLive (isLive_of_refreshed rfl) now

theorem System.IsLive.requests_ne_nil {id : Nat} (hid : s.hasRequest id = true) : s.requests ≠ [] := by
  intro hnil
  simp [hasRequest, hnil] at hid

theorem System.received_isLive_iff {id : Nat} (h : s.IsLive) (hid : s.hasRequest id = true) :
    (s.received id now).IsLive ↔ Regular s (.fail id now) := by
  have hne := IsLive.requests_ne_nil hid
  have hothers : (s.received id now).requests ≠ [] ↔ ∃ request ∈ s.requests, request.1 ≠ id := by
    simp [received, List.filter_eq_nil_iff]
  constructor
  · intro hlive hstate
    have hwaits := hlive.requested hstate
    rw [hothers] at hwaits
    exact hwaits
  · intro hregular
    refine ⟨?_, ?_, h.pendingRequest⟩
    · intro hstate
      rw [hothers]
      exact hregular hstate
    · intro hstate
      exact absurd (h.readingCache hstate).2 hne

theorem System.apiCreated_isLive_iff (h : s.IsLive) :
    (({ s with api := true } : System Emoji).tellApiChanged now).IsLive ↔
      Regular s (.apiCreated now) := by
  rw [tellApiChanged]
  cases hused : s.isUsed with
  | true =>
    rw [if_pos rfl]
    constructor
    · intro _ hunused
      rw [hused] at hunused
      cases hunused
    · intro _
      exact apiChanged_isLive (fun hstate _ => h.requested hstate) h.readingCache
  | false =>
    rw [if_neg Bool.false_ne_true]
    constructor
    · intro hlive _ hstate
      cases hlive.pendingRequest hstate
    · intro hregular
      refine ⟨h.requested, h.readingCache, ?_⟩
      intro hstate
      exact absurd hstate (hregular hused)

theorem System.apiDestroyed_isLive_iff (h : s.IsLive) :
    (({ s with api := false, requests := [] } : System Emoji).tellApiChanged now).IsLive ↔
      Regular s (.apiDestroyed now) := by
  have hreading : s.pack.state = .readingCache →
      s.pack.guard = some .cacheRead ∧ ([] : List (Nat × Request)) = [] :=
    fun hstate => ⟨(h.readingCache hstate).1, rfl⟩
  rw [tellApiChanged]
  cases hused : s.isUsed with
  | true =>
    rw [if_pos rfl]
    constructor
    · intro _ hunused
      rw [hused] at hunused
      cases hunused
    · intro _
      apply apiChanged_isLive _ hreading
      intro _ hnone
      cases hnone
  | false =>
    rw [if_neg Bool.false_ne_true]
    constructor
    · intro hlive _ hstate
      cases hlive.requested hstate with
      | inl hsent => exact absurd rfl hsent
      | inr happlying => exact happlying
    · intro hregular
      refine ⟨?_, hreading, fun _ => rfl⟩
      intro hstate
      exact .inr (hregular hused hstate)

theorem step_isLive_iff (h : s.IsLive) (hstep : s.step env e = some s') :
    s'.IsLive ↔ Regular s e := by
  cases e with
  | refresh now =>
    simp only [System.step, Option.ite_none_right_eq_some, Option.some.injEq] at hstep
    rw [← hstep.2]
    exact iff_of_true (System.refresh_isLive h now) trivial
  | cacheRead result now =>
    simp only [System.step] at hstep
    split at hstep
    · rw [← Option.some.inj hstep]
      exact iff_of_true (System.refresh_isLive (System.isLive_of_refreshed rfl) now) trivial
    · cases hstep
  | done id result now =>
    simp only [System.step, Option.ite_none_right_eq_some, Option.some.injEq] at hstep
    obtain ⟨hid, rfl⟩ := hstep
    apply iff_of_true _ trivial
    apply System.applyDifference_isLive env
    · intro hstate
      exact System.IsLive.requests_ne_nil hid (h.readingCache hstate).2
    · exact h.pendingRequest
  | fail id now =>
    simp only [System.step, Option.ite_none_right_eq_some, Option.some.injEq] at hstep
    rw [← hstep.2]
    exact System.received_isLive_iff h hstep.1
  | applied =>
    simp only [System.step] at hstep
    split at hstep
    · rw [← Option.some.inj hstep]
      exact iff_of_true (System.isLive_of_refreshed rfl) trivial
    · cases hstep
  | apiCreated now =>
    simp only [System.step, Option.ite_none_left_eq_some, Option.some.injEq] at hstep
    rw [← hstep.2]
    exact System.apiCreated_isLive_iff h
  | apiDestroyed now =>
    simp only [System.step, Option.ite_none_right_eq_some, Option.some.injEq] at hstep
    rw [← hstep.2]
    exact System.apiDestroyed_isLive_iff h
  | setAside =>
    simp only [System.step, Option.ite_none_right_eq_some, Option.some.injEq] at hstep
    rw [← hstep.2]
    exact iff_of_true ⟨h.requested, h.readingCache, h.pendingRequest⟩ trivial
  | takenBack =>
    simp only [System.step, Option.ite_none_left_eq_some, Option.some.injEq] at hstep
    rw [← hstep.2]
    exact iff_of_true ⟨h.requested, h.readingCache, h.pendingRequest⟩ trivial

theorem neverStalls {id : QString} (h : Reachable env id Regular s) : s.NeverStalls := by
  have hlive : s.IsLive := by
    induction h with
    | start api =>
      constructor
      · simp
      · simp
      · simp
    | step _ he hstep ih => exact (step_isLive_iff env ih hstep).mpr he
  exact hlive.moves

def noEmoji : Environment Unit := ⟨fun _ => none, id, id⟩

/-- The cache is read, and there is nothing new on the server. -/
theorem neverStalls_nothingNew : System.NeverStalls
    { pack := { id := utf16 "en", state := .refreshed, lastRefreshTime := 20, guard := none }
      api := true, lastRequestId := 1 : System Unit } := by
  have hstart : Reachable noEmoji (utf16 "en") Regular _ := .start true
  have hread := Reachable.step (e := .cacheRead {} 10) hstart trivial rfl
  have hdone := Reachable.step (e := .done 1 ⟨utf16 "en", 0, []⟩ 20) hread trivial rfl
  exact neverStalls noEmoji hdone

/-- The first request fails: the state stays as it was when the request was sent. -/
theorem failed_stalls : ¬ ∀ s, Reachable noEmoji (utf16 "en") (fun _ _ => True) s → s.NeverStalls := by
  intro h
  have hstart : Reachable noEmoji (utf16 "en") (fun _ _ => True) _ := .start true
  have hread := Reachable.step (e := .cacheRead {} 10) hstart trivial rfl
  have hfail := Reachable.step (e := .fail 1 20) hread trivial rfl
  cases (h _ hfail).requested rfl with
  | inl hsent => exact hsent rfl
  | inr happlying =>
    obtain ⟨data, hdata⟩ := happlying
    cases hdata

end TelegramClient.ChatHelpers
