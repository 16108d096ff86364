import Mathlib

/-! The addresses of a domain are asked for at one host after another
(`mtproto/special_config_request.cpp`). -/

namespace TelegramClient.Mtproto

namespace DomainResolver

def DnsDomains : List String := []

def kMinTimeToLive : Int := 10 * 1000

def kMaxTimeToLive : Int := 300 * 1000

structure DnsEntry where
  data : String
  TTL : Int := 0
  deriving DecidableEq

structure AttemptKey where
  domain : String
  ipv6 : Bool
  deriving DecidableEq

structure CacheEntry where
  ips : List String
  expireAt : Int
  deriving DecidableEq

/-- The hosts that are left, and the calls of `sendNextRequest` that wait for their time. -/
structure Attempts where
  hosts : List String
  scheduled : Nat
  deriving DecidableEq

/-- A reply that has not finished. -/
structure Reply where
  id : Nat
  key : AttemptKey
  host : String
  deriving DecidableEq

/-- What the callback gets, with the cache and the time that it is taken from. -/
structure Callback where
  domain : String
  ips : List String
  expireAt : Int
  cache : AttemptKey → Option CacheEntry
  now : Int

end DomainResolver

open DomainResolver

structure DomainResolver where
  attempts : AttemptKey → Option Attempts := fun _ => none
  requests : AttemptKey → Option (List Nat) := fun _ => none
  cache : AttemptKey → Option CacheEntry := fun _ => none
  lastTimestamp : Int := 0
  inFlight : List Reply := []
  lastReply : Nat := 0
  callbacks : List Callback := []

namespace DomainResolver

open Function (update)

def performRequest (s : DomainResolver) (key : AttemptKey) (host : String) : DomainResolver :=
  let reply := s.lastReply + 1
  { s with
    requests := update s.requests key (some ((s.requests key).getD [] ++ [reply]))
    inFlight := s.inFlight ++ [⟨reply, key, host⟩]
    lastReply := reply }

/-- `none` where a host is taken from an empty list. -/
def sendNextRequest (s : DomainResolver) (key : AttemptKey) : Option DomainResolver :=
  match s.attempts key with
  | none => some s
  | some attempts =>
    match attempts.hosts.getLast? with
    | none => none
    | some host =>
      let hosts := attempts.hosts.dropLast
      let scheduled := if hosts ≠ [] then attempts.scheduled + 1 else attempts.scheduled
      let s := { s with attempts := update s.attempts key (some ⟨hosts, scheduled⟩) }
      some (s.performRequest key host)

def checkExpireAndPushResult (s : DomainResolver) (domain : String) : DomainResolver :=
  match s.cache ⟨domain, false⟩ with
  | none => s
  | some ipv4 =>
    if ipv4.expireAt ≤ s.lastTimestamp then s
    else
      let result :=
        match s.cache ⟨domain, true⟩ with
        | none => ipv4
        | some ipv6 =>
          if ipv6.expireAt > s.lastTimestamp then
            ⟨ipv4.ips ++ ipv6.ips, min ipv4.expireAt ipv6.expireAt⟩
          else ipv4
      { s with callbacks :=
          s.callbacks ++ [⟨domain, result.ips, result.expireAt, s.cache, s.lastTimestamp⟩] }

/-- The hosts come in a random order. -/
def resolveKey (s : DomainResolver) (key : AttemptKey) (now : Int) (hosts : List String) :
    Option DomainResolver :=
  if (s.attempts key).isSome then some s
  else if (s.requests key).isSome then some s
  else
    let s := { s with lastTimestamp := now }
    match (s.cache key).filter fun entry => entry.expireAt > now with
    | some _ => some (s.checkExpireAndPushResult key.domain)
    | none => ({ s with attempts := update s.attempts key (some ⟨hosts, 0⟩) }).sendNextRequest key

def finalizeRequest (s : DomainResolver) (key : AttemptKey) (reply : Nat) : DomainResolver :=
  match s.requests key with
  | none => s
  | some requests =>
    let requests := requests.filter (· ≠ reply)
    { s with requests := update s.requests key (if requests = [] then none else some requests) }

def timeToLive (response : List DnsEntry) : Int :=
  response.foldl (fun ttl item => min ttl (max (item.TTL * 1000) kMinTimeToLive)) kMaxTimeToLive

/-- `response` has the entries that are read in the reply, none in one that is malformed. -/
def requestFinished (s : DomainResolver) (key : AttemptKey) (reply : Nat)
    (response : List DnsEntry) (now : Int) : DomainResolver :=
  let s := s.finalizeRequest key reply
  if response = [] then s
  else
    ({ s with
      requests := update s.requests key none
      attempts := update s.attempts key none
      lastTimestamp := now
      cache := update s.cache key
        (some ⟨response.map DnsEntry.data, now + timeToLive response⟩) } :
      DomainResolver).checkExpireAndPushResult key.domain

inductive Event where
  | resolve (domain : String) (now : Bool → Int) (hosts : Bool → List String)
  | finished (reply : Reply) (response : List DnsEntry) (now : Int)
  | timer (key : AttemptKey)

/-- A reply finishes once, and a call that was scheduled comes once. -/
def step (s : DomainResolver) : Event → Option DomainResolver
  | .resolve domain now hosts => do
    let s ← s.resolveKey ⟨domain, false⟩ (now false) (hosts false)
    s.resolveKey ⟨domain, true⟩ (now true) (hosts true)
  | .finished reply response now =>
    if reply ∈ s.inFlight then
      some (({ s with inFlight := s.inFlight.erase reply }).requestFinished reply.key reply.id
        response now)
    else some s
  | .timer key =>
    match s.attempts key with
    | none => some s
    | some attempts =>
      if attempts.scheduled = 0 then some s
      else
        ({ s with
          attempts := update s.attempts key
            (some ⟨attempts.hosts, attempts.scheduled - 1⟩) }).sendNextRequest key

/-! ### What is asked of the resolver -/

/-- A key that blocks its domain has a reply to come, or a host to go on with. -/
def Live (s : DomainResolver) : Prop := ∀ key attempts, s.attempts key = some attempts →
  (∃ ids, s.requests key = some ids ∧ ∃ id ∈ ids, ∃ reply ∈ s.inFlight,
    reply.key = key ∧ reply.id = id) ∨ attempts.hosts ≠ [] ∧ 0 < attempts.scheduled

def unexpired (cache : AttemptKey → Option CacheEntry) (key : AttemptKey) (now : Int) :
    Option CacheEntry := (cache key).filter fun entry => now < entry.expireAt

/-- The callback carries what is not expired of both kinds of addresses. -/
def Callback.Exact (c : Callback) : Prop :=
  ∃ ipv4, unexpired c.cache ⟨c.domain, false⟩ c.now = some ipv4 ∧
    c.ips = ipv4.ips ++ ((unexpired c.cache ⟨c.domain, true⟩ c.now).elim [] CacheEntry.ips) ∧
    c.expireAt = (unexpired c.cache ⟨c.domain, true⟩ c.now).elim ipv4.expireAt fun ipv6 =>
      min ipv4.expireAt ipv6.expireAt

def Good (s : DomainResolver) : Prop := s.Live ∧ ∀ c ∈ s.callbacks, c.Exact

/-- In every state of a run, and no host is taken from an empty list. -/
def AllGood : DomainResolver → List Event → Prop
  | s, [] => s.Good
  | s, e :: events => s.Good ∧ ∃ s', s.step e = some s' ∧ AllGood s' events

/-- Nothing is asked for a key. -/
def skips (s : DomainResolver) (key : AttemptKey) (now : Int) : Prop :=
  (s.attempts key).isSome ∨ (s.requests key).isSome ∨ (unexpired s.cache key now).isSome

/-- There are hosts to ask, and a reply with no answers is not the last one for its key. -/
def Fine (s : DomainResolver) : Event → Prop
  | .resolve domain now hosts =>
    ∀ ipv6, hosts ipv6 ≠ [] ∨ s.skips ⟨domain, ipv6⟩ (now ipv6)
  | .finished reply response _ => reply ∈ s.inFlight → response = [] →
    ∀ attempts, s.attempts reply.key = some attempts → attempts.hosts ≠ [] ∨
      ∃ ids, s.requests reply.key = some ids ∧ ∃ id ∈ ids, id ≠ reply.id
  | .timer _ => True

def AllFine : DomainResolver → List Event → Prop
  | _, [] => True
  | s, e :: events => s.Fine e ∧ ∀ s', s.step e = some s' → AllFine s' events

/-! ### One event -/

variable {s s' t : DomainResolver} {key key' : AttemptKey} {hosts : List String} {now : Int}
  {reply : Reply} {response : List DnsEntry} {e : Event} {events : List Event}

/-- What holds of the three maps and of the replies after every event. -/
structure Valid (s : DomainResolver) : Prop where
  scheduled : ∀ key attempts, s.attempts key = some attempts →
    attempts.scheduled = if attempts.hosts = [] then 0 else 1
  ne_nil : ∀ key ids, s.requests key = some ids → ids ≠ []
  inFlight : ∀ key ids, s.requests key = some ids → ∀ id ∈ ids,
    ∃ reply ∈ s.inFlight, reply.key = key ∧ reply.id = id

theorem valid_fresh : Valid {} := ⟨nofun, nofun, nofun⟩

theorem good_fresh : Good {} := ⟨nofun, nofun⟩

/-- For the keys with attempts it is enough to look whether there are requests, and hosts. -/
theorem Valid.live_iff (hs : s.Valid) : s.Live ↔ ∀ key attempts, s.attempts key = some attempts →
    (s.requests key).isSome ∨ attempts.hosts ≠ [] := by
  refine forall_congr' fun key => forall_congr' fun attempts => imp_congr_right fun hattempts => ?_
  refine or_congr ?_ ?_
  · constructor
    · rintro ⟨ids, hids, -⟩
      rw [hids]
      rfl
    · intro hsome
      obtain ⟨ids, hids⟩ := Option.isSome_iff_exists.mp hsome
      obtain ⟨id, hid⟩ := List.exists_mem_of_ne_nil ids (hs.ne_nil key ids hids)
      exact ⟨ids, hids, id, hid, hs.inFlight key ids hids id hid⟩
  · have hscheduled := hs.scheduled key attempts hattempts
    by_cases hhosts : attempts.hosts = []
    · simp [hhosts]
    · rw [if_neg hhosts] at hscheduled
      simp [hhosts, hscheduled]

/-- A host is taken for `key`, and asked. -/
def asked (t : DomainResolver) (key : AttemptKey) (hosts : List String) (host : String) :
    DomainResolver :=
  ({ t with
    attempts := update t.attempts key
      (some ⟨hosts.dropLast, if hosts.dropLast = [] then 0 else 1⟩) } :
    DomainResolver).performRequest key host

theorem sendNextRequest_eq (t : DomainResolver) (key : AttemptKey) (hosts : List String) :
    ({ t with attempts := update t.attempts key (some ⟨hosts, 0⟩) } :
      DomainResolver).sendNextRequest key =
      hosts.getLast?.map fun host => t.asked key hosts host := by
  rw [sendNextRequest]
  simp only [Function.update_self]
  cases hosts.getLast? with
  | none => rfl
  | some host =>
    simp only [Function.update_idem, asked]
    split <;> simp_all

theorem asked_valid (ht : t.Valid) (key : AttemptKey) (hosts : List String) (host : String) :
    (t.asked key hosts host).Valid where
  scheduled := by
    intro key' attempts hattempts
    by_cases hkey : key' = key
    · subst hkey
      simp only [asked, performRequest, Function.update_self, Option.some.injEq] at hattempts
      subst hattempts
      rfl
    · simp only [asked, performRequest, Function.update_of_ne hkey] at hattempts
      exact ht.scheduled key' attempts hattempts
  ne_nil := by
    intro key' ids hids
    by_cases hkey : key' = key
    · subst hkey
      simp only [asked, performRequest, Function.update_self, Option.some.injEq] at hids
      rw [← hids]
      simp
    · simp only [asked, performRequest, Function.update_of_ne hkey] at hids
      exact ht.ne_nil key' ids hids
  inFlight := by
    intro key' ids hids id hid
    by_cases hkey : key' = key
    · subst hkey
      simp only [asked, performRequest, Function.update_self, Option.some.injEq] at hids
      subst hids
      rcases List.mem_append.mp hid with hold | hnew
      · cases hrequests : t.requests key' with
        | none =>
          rw [hrequests] at hold
          cases hold
        | some ids =>
          rw [hrequests] at hold
          obtain ⟨reply, hreply, hsame⟩ := ht.inFlight key' ids hrequests id hold
          exact ⟨reply, List.mem_append_left _ hreply, hsame⟩
      · refine ⟨⟨t.lastReply + 1, key', host⟩, List.mem_append_right _ List.mem_cons_self, rfl, ?_⟩
        exact (List.mem_singleton.mp hnew).symm
    · simp only [asked, performRequest, Function.update_of_ne hkey] at hids
      obtain ⟨reply, hreply, hsame⟩ := ht.inFlight key' ids hids id hid
      exact ⟨reply, List.mem_append_left _ hreply, hsame⟩

theorem asked_good (ht : t.Valid) (hgood : t.Good) (key : AttemptKey) (hosts : List String)
    (host : String) : (t.asked key hosts host).Good := by
  refine ⟨(asked_valid ht key hosts host).live_iff.mpr ?_, hgood.2⟩
  intro key' attempts hattempts
  by_cases hkey : key' = key
  · subst hkey
    exact .inl (by simp [asked, performRequest])
  · simp only [asked, performRequest, Function.update_of_ne hkey] at hattempts ⊢
    exact ht.live_iff.mp hgood.1 key' attempts hattempts

/-- A push changes only what is called back, and carries what is not expired. -/
theorem checkExpireAndPushResult_eq (s : DomainResolver) (domain : String) :
    s.checkExpireAndPushResult domain = s ∨ ∃ c : Callback, c.Exact ∧
      s.checkExpireAndPushResult domain = { s with callbacks := s.callbacks ++ [c] } := by
  rw [checkExpireAndPushResult]
  cases hipv4 : s.cache ⟨domain, false⟩ with
  | none => exact .inl rfl
  | some ipv4 =>
    by_cases hexpired : ipv4.expireAt ≤ s.lastTimestamp
    · exact .inl (if_pos hexpired)
    · refine .inr ⟨_, ⟨ipv4, ?_, ?_, ?_⟩, if_neg hexpired⟩
      · simpa [unexpired, hipv4] using hexpired
      all_goals
        cases hipv6 : s.cache ⟨domain, true⟩ with
        | none => simp [unexpired, hipv6]
        | some ipv6 =>
          by_cases hless : s.lastTimestamp < ipv6.expireAt
          · simp [unexpired, hipv6, hless, Option.filter_some]
          · simp [unexpired, hipv6, hless, Option.filter_some]

theorem Valid.push (hs : s.Valid) (domain : String) : (s.checkExpireAndPushResult domain).Valid := by
  rcases checkExpireAndPushResult_eq s domain with heq | ⟨c, -, heq⟩
  · rwa [heq]
  · rw [heq]
    exact ⟨hs.scheduled, hs.ne_nil, hs.inFlight⟩

theorem push_good_iff (hexact : ∀ c ∈ s.callbacks, c.Exact) (domain : String) :
    (s.checkExpireAndPushResult domain).Good ↔ s.Live := by
  rcases checkExpireAndPushResult_eq s domain with heq | ⟨c, hc, heq⟩
  · rw [heq]
    exact and_iff_left hexact
  · rw [heq]
    refine and_iff_left fun c' hc' => ?_
    rcases List.mem_append.mp hc' with hold | hnew
    · exact hexact c' hold
    · rw [List.mem_singleton.mp hnew]
      exact hc

/-- What one key's resolving leaves of the other keys. -/
structure Kept (s s' : DomainResolver) (key : AttemptKey) : Prop where
  valid : s'.Valid
  good : s'.Good
  attempts : ∀ key', key' ≠ key → s'.attempts key' = s.attempts key'
  requests : ∀ key', key' ≠ key → s'.requests key' = s.requests key'
  cache : s'.cache = s.cache

theorem Kept.skips_iff (h : Kept s s' key) (hkey : key' ≠ key) :
    s'.skips key' now ↔ s.skips key' now := by
  rw [skips, skips, h.attempts key' hkey, h.requests key' hkey, h.cache]

theorem asked_kept (hs : s.Valid) (hgood : s.Good) (key : AttemptKey) (hosts : List String)
    (host : String) : Kept s (s.asked key hosts host) key where
  valid := asked_valid hs key hosts host
  good := asked_good hs hgood key hosts host
  attempts key' hkey := by simp only [asked, performRequest, Function.update_of_ne hkey]
  requests key' hkey := by simp only [asked, performRequest, Function.update_of_ne hkey]
  cache := rfl

/-- There is a host to take, or none is taken. -/
theorem resolveKey_spec (hs : s.Valid) (hgood : s.Good) (key : AttemptKey) (now : Int)
    (hosts : List String) :
    ((s.resolveKey key now hosts).isSome ↔ hosts ≠ [] ∨ s.skips key now) ∧
      ∀ s', s.resolveKey key now hosts = some s' → Kept s s' key := by
  have hkept : Kept s s key := ⟨hs, hgood, fun _ _ => rfl, fun _ _ => rfl, rfl⟩
  rw [resolveKey]
  by_cases hattempts : (s.attempts key).isSome
  · rw [if_pos hattempts]
    exact ⟨iff_of_true rfl (.inr (.inl hattempts)), fun s' h => Option.some.inj h ▸ hkept⟩
  by_cases hrequests : (s.requests key).isSome
  · rw [if_neg hattempts, if_pos hrequests]
    exact ⟨iff_of_true rfl (.inr (.inr (.inl hrequests))), fun s' h => Option.some.inj h ▸ hkept⟩
  rw [if_neg hattempts, if_neg hrequests]
  dsimp only
  have hs' : Valid { s with lastTimestamp := now } :=
    ⟨hs.scheduled, hs.ne_nil, hs.inFlight⟩
  have hgood' : Good { s with lastTimestamp := now } := hgood
  cases hcache : (s.cache key).filter fun entry => entry.expireAt > now with
  | some entry =>
    have hskips : s.skips key now := .inr (.inr (by
      rw [unexpired]
      exact Option.isSome_iff_exists.mpr ⟨entry, hcache⟩))
    refine ⟨iff_of_true rfl (.inr hskips), fun s' h => ?_⟩
    obtain rfl := Option.some.inj h
    refine ⟨hs'.push key.domain, (push_good_iff hgood'.2 key.domain).mpr hgood'.1, ?_, ?_, ?_⟩
    all_goals
      rcases checkExpireAndPushResult_eq { s with lastTimestamp := now } key.domain with
        heq | ⟨c, -, heq⟩ <;> simp only [heq, implies_true]
  | none =>
    have hskips : ¬s.skips key now := by
      rintro (h | h | h)
      · exact hattempts h
      · exact hrequests h
      · obtain ⟨entry, hentry⟩ := Option.isSome_iff_exists.mp h
        rw [unexpired] at hentry
        exact absurd (hcache.symm.trans hentry) nofun
    dsimp only
    rw [sendNextRequest_eq { s with lastTimestamp := now } key hosts, or_iff_left hskips]
    refine ⟨by simp, fun s' h => ?_⟩
    obtain ⟨host, -, rfl⟩ := Option.map_eq_some_iff.mp h
    have hasked := asked_kept hs' hgood' key hosts host
    exact ⟨hasked.valid, hasked.good, hasked.attempts, hasked.requests, hasked.cache⟩

theorem timer_spec (hs : s.Valid) (hgood : s.Good) (key : AttemptKey) :
    ∃ s', s.step (.timer key) = some s' ∧ s'.Valid ∧ s'.Good := by
  rw [step]
  cases hattempts : s.attempts key with
  | none => exact ⟨s, rfl, hs, hgood⟩
  | some attempts =>
    have hscheduled := hs.scheduled key attempts hattempts
    by_cases hhosts : attempts.hosts = []
    · rw [if_pos hhosts] at hscheduled
      exact ⟨s, if_pos hscheduled, hs, hgood⟩
    · rw [if_neg hhosts] at hscheduled
      have hlast : attempts.hosts.getLast? = some (attempts.hosts.getLast hhosts) :=
        List.getLast?_eq_some_getLast hhosts
      simp only [hscheduled, Nat.one_ne_zero, if_false, Nat.sub_self]
      rw [sendNextRequest_eq, hlast]
      exact ⟨_, rfl, asked_valid hs _ _ _, asked_good hs hgood _ _ _⟩

/-- The state after a reply with no answers. -/
def failed (s : DomainResolver) (reply : Reply) : DomainResolver :=
  ({ s with inFlight := s.inFlight.erase reply } : DomainResolver).finalizeRequest reply.key reply.id

theorem failed_attempts (s : DomainResolver) (reply : Reply) :
    (s.failed reply).attempts = s.attempts ∧ (s.failed reply).callbacks = s.callbacks ∧
      (s.failed reply).inFlight = s.inFlight.erase reply := by
  rw [failed, finalizeRequest]
  split <;> exact ⟨rfl, rfl, rfl⟩

theorem failed_requests (s : DomainResolver) (reply : Reply) (key : AttemptKey) :
    (s.failed reply).requests key =
      if key = reply.key then
        (s.requests key).bind fun ids =>
          if ids.filter (· ≠ reply.id) = [] then none else some (ids.filter (· ≠ reply.id))
      else s.requests key := by
  rw [failed, finalizeRequest]
  split
  · rename_i hnone
    by_cases hkey : key = reply.key
    · rw [if_pos hkey, hkey, hnone]
      rfl
    · rw [if_neg hkey]
  · rename_i ids hids
    by_cases hkey : key = reply.key
    · rw [if_pos hkey, hkey, hids]
      simp
    · rw [if_neg hkey]
      simp [Function.update_of_ne hkey]

theorem failed_valid (hs : s.Valid) (reply : Reply) : (s.failed reply).Valid := by
  obtain ⟨hattempts, -, hinFlight⟩ := failed_attempts s reply
  refine ⟨by rw [hattempts]; exact hs.scheduled, ?_, ?_⟩
  · intro key ids hids
    rw [failed_requests] at hids
    split at hids
    · obtain ⟨old, -, hfilter⟩ := Option.bind_eq_some_iff.mp hids
      split at hfilter
      · cases hfilter
      · cases hfilter
        assumption
    · exact hs.ne_nil key ids hids
  · intro key ids hids id hid
    rw [hinFlight]
    rw [failed_requests] at hids
    split at hids
    · obtain ⟨old, hold, hfilter⟩ := Option.bind_eq_some_iff.mp hids
      split at hfilter
      · cases hfilter
      · cases hfilter
        obtain ⟨hmem, hne⟩ := List.mem_filter.mp hid
        obtain ⟨other, hother, hkey, hsame⟩ := hs.inFlight key old hold id hmem
        have hdistinct : other ≠ reply := by
          rintro rfl
          exact absurd hsame.symm (of_decide_eq_true hne)
        exact ⟨other, (List.mem_erase_of_ne hdistinct).mpr hother, hkey, hsame⟩
    · rename_i hkey
      obtain ⟨other, hother, hsame, hid⟩ := hs.inFlight key ids hids id hid
      have hdistinct : other ≠ reply := by
        rintro rfl
        exact hkey hsame.symm
      exact ⟨other, (List.mem_erase_of_ne hdistinct).mpr hother, hsame, hid⟩

/-- A reply with no answers leaves the resolver live if there is another one, or a host. -/
theorem failed_live_iff (hs : s.Valid) (hlive : s.Live) (reply : Reply) :
    (s.failed reply).Live ↔ ∀ attempts, s.attempts reply.key = some attempts →
      attempts.hosts ≠ [] ∨ ∃ ids, s.requests reply.key = some ids ∧ ∃ id ∈ ids, id ≠ reply.id := by
  rw [(failed_valid hs reply).live_iff, (failed_attempts s reply).1]
  have hkey : ((s.failed reply).requests reply.key).isSome ↔
      ∃ ids, s.requests reply.key = some ids ∧ ∃ id ∈ ids, id ≠ reply.id := by
    rw [failed_requests, if_pos rfl]
    cases hrequests : s.requests reply.key with
    | none => simp
    | some ids =>
      by_cases hnone : ids.filter (· ≠ reply.id) = []
      · simp only [Option.bind_some, if_pos hnone]
        simpa using hnone
      · simp only [Option.bind_some, if_neg hnone]
        simpa using hnone
  constructor
  · intro h attempts hattempts
    exact (h reply.key attempts hattempts).symm.imp_right hkey.mp
  · intro h key attempts hattempts
    by_cases heq : key = reply.key
    · subst heq
      exact (h attempts hattempts).symm.imp_left hkey.mpr
    · rw [failed_requests, if_neg heq]
      exact hs.live_iff.mp hlive key attempts hattempts

/-- The state after a reply with answers, before they are pushed. -/
def answered (s : DomainResolver) (reply : Reply) (entry : CacheEntry) (now : Int) :
    DomainResolver :=
  { s.failed reply with
    requests := update (s.failed reply).requests reply.key none
    attempts := update (s.failed reply).attempts reply.key none
    lastTimestamp := now
    cache := update (s.failed reply).cache reply.key (some entry) }

theorem answered_valid (hs : s.Valid) (reply : Reply) (entry : CacheEntry) (now : Int) :
    (s.answered reply entry now).Valid := by
  have hvalid := failed_valid hs reply
  refine ⟨?_, ?_, ?_⟩
  all_goals
    intro key value hvalue
    by_cases hkey : key = reply.key
    · subst hkey
      simp [answered] at hvalue
    simp only [answered, Function.update_of_ne hkey] at hvalue
  · exact hvalid.scheduled key value hvalue
  · exact hvalid.ne_nil key value hvalue
  · exact hvalid.inFlight key value hvalue

theorem answered_live (hs : s.Valid) (hlive : s.Live) (reply : Reply) (entry : CacheEntry)
    (now : Int) : (s.answered reply entry now).Live := by
  refine (answered_valid hs reply entry now).live_iff.mpr fun key attempts hattempts => ?_
  by_cases hkey : key = reply.key
  · subst hkey
    simp [answered] at hattempts
  · simp only [answered, Function.update_of_ne hkey, (failed_attempts s reply).1] at hattempts ⊢
    rw [failed_requests, if_neg hkey]
    exact hs.live_iff.mp hlive key attempts hattempts

theorem finished_spec (hs : s.Valid) (hgood : s.Good) (reply : Reply) (response : List DnsEntry)
    (now : Int) : ∃ s', s.step (.finished reply response now) = some s' ∧ s'.Valid ∧
      (s'.Good ↔ s.Fine (.finished reply response now)) := by
  rw [step]
  by_cases hreply : reply ∈ s.inFlight
  · rw [if_pos hreply]
    obtain ⟨-, hcallbacks, -⟩ := failed_attempts s reply
    by_cases hnone : response = []
    · refine ⟨s.failed reply, by rw [requestFinished, if_pos hnone]; rfl, failed_valid hs reply, ?_⟩
      rw [Good, hcallbacks, failed_live_iff hs hgood.1 reply]
      simp only [Fine, hreply, hnone, true_imp_iff]
      exact and_iff_left hgood.2
    · have hanswered : ({ s with inFlight := s.inFlight.erase reply } :
          DomainResolver).requestFinished reply.key reply.id response now =
          (s.answered reply ⟨response.map DnsEntry.data, now + timeToLive response⟩
            now).checkExpireAndPushResult reply.key.domain := by
        rw [requestFinished, if_neg hnone]
        rfl
      rw [hanswered]
      refine ⟨_, rfl, (answered_valid hs reply _ now).push _, ?_⟩
      refine iff_of_true ((push_good_iff ?_ _).mpr (answered_live hs hgood.1 reply _ now))
        fun _ h => absurd h hnone
      rw [answered, hcallbacks]
      exact hgood.2
  · exact ⟨s, if_neg hreply, hs, iff_of_true hgood fun h => absurd h hreply⟩

theorem resolve_spec (hs : s.Valid) (hgood : s.Good) (domain : String) (now : Bool → Int)
    (hosts : Bool → List String) :
    ((s.step (.resolve domain now hosts)).isSome ↔ s.Fine (.resolve domain now hosts)) ∧
      ∀ s', s.step (.resolve domain now hosts) = some s' → s'.Valid ∧ s'.Good := by
  have hkey : (⟨domain, true⟩ : AttemptKey) ≠ ⟨domain, false⟩ := by simp
  obtain ⟨hfirst, hfirstKept⟩ := resolveKey_spec hs hgood ⟨domain, false⟩ (now false) (hosts false)
  rw [step, Fine, Bool.forall_bool, ← hfirst]
  cases hresult : s.resolveKey ⟨domain, false⟩ (now false) (hosts false) with
  | none => exact ⟨by simp, nofun⟩
  | some t =>
    have hkept := hfirstKept t hresult
    obtain ⟨hsecond, hsecondKept⟩ := resolveKey_spec hkept.valid hkept.good ⟨domain, true⟩
      (now true) (hosts true)
    rw [hkept.skips_iff hkey] at hsecond
    refine ⟨?_, fun s' h => ⟨(hsecondKept s' h).valid, (hsecondKept s' h).good⟩⟩
    rw [← hsecond]
    simp

/-! ### Runs -/

/-- An event keeps what holds exactly if it is fine, and takes no host from an empty list. -/
theorem step_good_iff (hs : s.Valid) (hgood : s.Good) (e : Event) :
    (s.Fine e ↔ ∃ s', s.step e = some s' ∧ s'.Good) ∧ ∀ s', s.step e = some s' → s'.Valid := by
  cases e with
  | resolve domain now hosts =>
    obtain ⟨hfine, hkept⟩ := resolve_spec hs hgood domain now hosts
    refine ⟨?_, fun s' h => (hkept s' h).1⟩
    rw [← hfine, Option.isSome_iff_exists]
    exact exists_congr fun s' => (and_iff_left_of_imp fun h => (hkept s' h).2).symm
  | finished reply response now =>
    obtain ⟨s', hstep, hvalid, hfine⟩ := finished_spec hs hgood reply response now
    rw [hstep]
    exact ⟨by simpa using hfine.symm, fun t h => Option.some.inj h ▸ hvalid⟩
  | timer key =>
    obtain ⟨s', hstep, hvalid, hgood'⟩ := timer_spec hs hgood key
    exact ⟨iff_of_true trivial ⟨s', hstep, hgood'⟩,
      fun t h => Option.some.inj (hstep.symm.trans h) ▸ hvalid⟩

theorem AllGood.good (h : s.AllGood events) : s.Good := by
  cases events with
  | nil => exact h
  | cons e events => exact h.1

theorem allGood_iff (hs : s.Valid) (hgood : s.Good) (events : List Event) :
    s.AllGood events ↔ s.AllFine events := by
  induction events generalizing s with
  | nil => exact iff_of_true hgood trivial
  | cons e events ih =>
    obtain ⟨hfine, hvalid⟩ := step_good_iff hs hgood e
    rw [AllGood, AllFine, and_iff_right hgood, hfine]
    constructor
    · rintro ⟨s', hstep, hrest⟩
      refine ⟨⟨s', hstep, hrest.good⟩, fun t ht => ?_⟩
      obtain rfl := Option.some.inj (hstep.symm.trans ht)
      exact (ih (hvalid s' hstep) hrest.good).mp hrest
    · rintro ⟨⟨s', hstep, hgood'⟩, hrest⟩
      exact ⟨s', hstep, (ih (hvalid s' hstep) hgood').mpr (hrest s' hstep)⟩

/-- The hosts of an event are those of a list, in some order. -/
def Event.Shuffled (domains : List String) : Event → Prop
  | .resolve _ _ hosts => ∀ ipv6, (hosts ipv6).Perm domains
  | _ => True

def Event.isResolve : Event → Bool
  | .resolve _ _ _ => true
  | _ => false

/-- Nothing happens before a domain is resolved, and then there is no host. -/
theorem allFine_fresh_iff (hshuffled : ∀ e ∈ events, e.Shuffled DnsDomains) :
    AllFine {} events ↔ ∀ e ∈ events, e.isResolve = false := by
  induction events with
  | nil => exact iff_of_true trivial nofun
  | cons e events ih =>
    have hrest := ih fun e' he' => hshuffled e' (List.mem_cons_of_mem e he')
    rw [AllFine, List.forall_mem_cons]
    cases e with
    | resolve domain now hosts =>
      have hnone := List.perm_nil.mp (hshuffled _ List.mem_cons_self false)
      refine iff_of_false (fun h => ?_) (fun h => nomatch h.1)
      rcases h.1 false with hhosts | hskips
      · exact hhosts hnone
      · rcases hskips with h | h | h <;> cases h
    | finished reply response now =>
      have hstep : step {} (.finished reply response now) = some {} := by
        rw [step]
        exact if_neg List.not_mem_nil
      rw [hstep, ← hrest]
      simp [Fine, Event.isResolve]
    | timer key =>
      have hstep : step {} (.timer key) = some {} := rfl
      rw [hstep, ← hrest]
      simp [Fine, Event.isResolve]

/-- A run is good exactly if all its events are fine; with the list of the code, exactly if no
domain is ever resolved. -/
theorem resolver_good_iff (events : List Event) :
    (AllGood {} events ↔ AllFine {} events) ∧
      ((∀ e ∈ events, e.Shuffled DnsDomains) →
        (AllGood {} events ↔ ∀ e ∈ events, e.isResolve = false)) := by
  have hiff := allGood_iff valid_fresh good_fresh events
  exact ⟨hiff, fun hshuffled => hiff.trans (allFine_fresh_iff hshuffled)⟩

theorem resolver_good_iff_timer :
    let events := [Event.timer ⟨"example.org", false⟩]
    (AllGood {} events ↔ AllFine {} events) ∧
      ((∀ e ∈ events, e.Shuffled DnsDomains) →
        (AllGood {} events ↔ ∀ e ∈ events, e.isResolve = false)) :=
  resolver_good_iff [Event.timer ⟨"example.org", false⟩]

/-- With the list of the code the first domain takes a host where there is none. Were there one
host, then a domain whose replies have no answers would not be asked for again. -/
theorem resolver_gets_stuck :
    step {} (.resolve "example.org" (fun _ => 0) fun _ => DnsDomains) = none ∧
      let ask := Event.resolve "example.org" (fun _ => 0) fun _ => ["dns.google.com"]
      let fail := fun id ipv6 =>
        Event.finished ⟨id, ⟨"example.org", ipv6⟩, "dns.google.com"⟩ [] 0
      let again := Event.resolve "example.org" (fun _ => 1000000) fun _ => ["dns.google.com"]
      ([ask, fail 1 false, fail 2 true, again].foldlM step {}).map
        (fun s => (s.lastReply, s.inFlight, s.attempts ⟨"example.org", false⟩)) =
        some (2, [], some ⟨[], 0⟩) := by
  decide

end DomainResolver

end TelegramClient.Mtproto
