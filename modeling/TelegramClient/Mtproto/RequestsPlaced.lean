import Mathlib
import TelegramClient.Mtproto.Requests

/-! Every request that has handlers is in one place where it waits. -/

namespace TelegramClient.Mtproto.Requests

/-- The invariant. `live` are the handlers, those that were taken out to be called included,
and the request `air` is being handled and is in no place. -/
structure Inv (live : Id → Option Handlers) (air : Option Id) (s : Requests) : Prop where
  registered : ∀ (id : Id), live id ≠ none → id ∈ s.requestsByDc ∧ id ∈ s.requestMap
  placed : ∀ (id : Id), live id ≠ none → s.held.count id = if air = some id then 0 else 1
  waits : ∀ (dcId : Dc) (id : Id), (dcId, id) ∈ s.authWaiters → id ∈ s.requestsByDc →
    live id ≠ none ∧ ∃ d, s.requestsByDc[id]? = some d ∧ bareDcId |d| = dcId
  served : ∀ (dcId : Dc) (id : Id), (dcId, id) ∈ s.authWaiters → id ∈ s.requestsByDc →
    s.Outstanding live dcId
  exports : ∀ (id : Id), live id = some .exportAuth →
    ∃ d, s.authExportRequests[id]? = some d ∧ bareDcId d ≠ 0
  unknown : ∀ (id : Id), s.nextRequestId ≤ id ∨ id = 0 →
    live id = none ∧ id ∉ s.requestsByDc ∧ id ∉ s.authExportRequests ∧ id ∉ s.held
  next_pos : 0 < s.nextRequestId
  sorted : s.delayedRequests.Pairwise fun p q => p.2 ≤ q.2
  once : s.finals.Nodup
  final : ∀ id ∈ s.finals, id < s.nextRequestId ∧ (live id ≠ none → air = some id)

variable {live : Id → Option Handlers} {air : Option Id} {s s' : Requests} {id : Id}

theorem mem_held : id ∈ s.held ↔ (∃ session, (session, id) ∈ s.sent) ∨
    id ∈ s.delayedRequests.map Prod.fst ∨ ∃ dcId, (dcId, id) ∈ s.authWaiters := by
  simp [held]

theorem count_held : s.held.count id = (s.sent.map Prod.snd).count id +
    (s.delayedRequests.map Prod.fst).count id + (s.authWaiters.map Prod.snd).count id := by
  rw [held, List.count_append, List.count_append]

theorem Inv.not_held (h : Inv live (some id) s) (hid : live id ≠ none) : id ∉ s.held := by
  rw [← List.count_eq_zero, h.placed id hid, if_pos rfl]

theorem Inv.lt (h : Inv live air s) (hid : live id ≠ none) : id < s.nextRequestId := by
  by_contra hle
  exact hid (h.unknown id (.inl (Nat.le_of_not_lt hle))).1

theorem Inv.ne_zero (h : Inv live air s) (hid : live id ≠ none) : id ≠ 0 := by
  rintro rfl
  exact hid (h.unknown 0 (.inr rfl)).1

theorem Inv.frame (h : Inv live air s) (hby : s'.requestsByDc = s.requestsByDc)
    (hmap : ∀ id ∈ s.requestMap, id ∈ s'.requestMap)
    (hexport : s'.authExportRequests = s.authExportRequests) (hsent : s'.sent = s.sent)
    (hdelayed : s'.delayedRequests = s.delayedRequests) (hwaiters : s'.authWaiters = s.authWaiters)
    (hnext : s'.nextRequestId = s.nextRequestId) (hfinals : s'.finals = s.finals) :
    Inv live air s' := by
  have hheld : s'.held = s.held := by rw [held, held, hsent, hdelayed, hwaiters]
  refine ⟨fun id hid => ?_, ?_, ?_, ?_, ?_, ?_, ?_, ?_, ?_, ?_⟩
  · rw [hby]
    exact ⟨(h.registered id hid).1, hmap id (h.registered id hid).2⟩
  · rw [hheld]
    exact h.placed
  · rw [hwaiters, hby]
    exact h.waits
  · intro dcId id
    rw [hwaiters, hby, Outstanding, hexport, hby, hwaiters]
    exact h.served dcId id
  · rw [hexport]
    exact h.exports
  · rw [hnext, hby, hexport, hheld]
    exact h.unknown
  · rw [hnext]
    exact h.next_pos
  · rw [hdelayed]
    exact h.sorted
  · rw [hfinals]
    exact h.once
  · rw [hfinals, hnext]
    exact h.final

theorem Inv.place (h : Inv live (some id) s) (hid : live id ≠ none) (hfinal : id ∉ s.finals)
    {sent : List (Dc × Id)} {delayed : List (Id × Int)} {waiters : List (Dc × Id)}
    (hheld : ({ s with sent := sent, delayedRequests := delayed, authWaiters := waiters } :
      Requests).held.Perm (id :: s.held))
    (hsorted : delayed.Pairwise fun p q => p.2 ≤ q.2)
    (hwaits : ∀ (dcId : Dc) (k : Id), (dcId, k) ∈ waiters → (dcId, k) ∈ s.authWaiters ∨
      (k = id ∧ ∃ d, s.requestsByDc[id]? = some d ∧ bareDcId |d| = dcId))
    (hserved : ∀ (dcId : Dc) (k : Id), (dcId, k) ∈ waiters → k ∈ s.requestsByDc →
      ({ s with sent := sent, delayedRequests := delayed, authWaiters := waiters } :
        Requests).Outstanding live dcId) :
    Inv live none
      { s with sent := sent, delayedRequests := delayed, authWaiters := waiters } := by
  refine ⟨h.registered, fun k hk => ?_, fun dcId k hmem hby => ?_, hserved, h.exports,
    fun k hk => ?_, h.next_pos, hsorted, h.once, fun k hk => ?_⟩
  · rw [hheld.count_eq, List.count_cons, h.placed k hk]
    by_cases hkid : k = id
    · simp [hkid]
    · simp [Ne.symm hkid]
  · rcases hwaits dcId k hmem with hold | ⟨rfl, hdc⟩
    · exact h.waits dcId k hold hby
    · exact ⟨hid, hdc⟩
  · obtain ⟨hlive, hby, hexport, hnot⟩ := h.unknown k hk
    refine ⟨hlive, hby, hexport, fun hmem => ?_⟩
    rw [hheld.mem_iff, List.mem_cons] at hmem
    rcases hmem with rfl | hmem
    · exact hid hlive
    · exact hnot hmem
  · refine ⟨(h.final k hk).1, fun hlive => ?_⟩
    have hkid := (h.final k hk).2 hlive
    exact absurd hk (Option.some.inj hkid ▸ hfinal)

theorem Inv.sendPrepared (h : Inv live (some id) s) (hid : live id ≠ none)
    (hfinal : id ∉ s.finals) (session : Dc) : Inv live none (s.sendPrepared session id) := by
  have hnew : (session, id) ∉ s.sent := fun hmem =>
    h.not_held hid (mem_held.mpr (.inl ⟨session, hmem⟩))
  rw [Requests.sendPrepared, if_neg hnew]
  exact h.place hid hfinal (List.Perm.refl _) h.sorted (fun dcId k hmem => .inl hmem) h.served

/-- The request stays with its session or in its place, or it is gone already. -/
theorem Inv.sendPrepared_other (h : Inv live air s) (hid : live id = none)
    (hlt : id < s.nextRequestId) (hne : id ≠ 0) (session : Dc) :
    Inv live air (s.sendPrepared session id) := by
  by_cases hmem : (session, id) ∈ s.sent
  · rw [Requests.sendPrepared, if_pos hmem]
    exact h
  · rw [Requests.sendPrepared, if_neg hmem]
    refine ⟨h.registered, fun k hk => ?_, h.waits, h.served, h.exports, fun k hk => ?_, h.next_pos,
      h.sorted, h.once, h.final⟩
    · have hkid : k ≠ id := fun heq => hk (heq ▸ hid)
      have hcount := h.placed k hk
      rw [count_held] at hcount ⊢
      rw [← hcount, List.map_cons, List.count_cons_of_ne (Ne.symm hkid)]
    · obtain ⟨hlive, hby, hexport, hnot⟩ := h.unknown k hk
      refine ⟨hlive, hby, hexport, fun hheld => hnot ?_⟩
      have hkid : k ≠ id := by
        rintro rfl
        rcases hk with hk | hk
        · exact Nat.not_lt.mpr hk hlt
        · exact hne hk
      rw [mem_held] at hheld ⊢
      refine hheld.imp_left ?_
      rintro ⟨session', hsent⟩
      refine ⟨session', ?_⟩
      rcases List.mem_cons.mp hsent with heq | hsent
      · exact absurd (congrArg Prod.snd heq) hkid
      · exact hsent

/-! ### Sending -/

/-- The handlers when a request has been sent. -/
def added (live : Id → Option Handlers) (id : Id) (callbacks : Handlers) : Id → Option Handlers :=
  if callbacks = .user false false then live else Function.update live id (some callbacks)

theorem added_of_lt {callbacks : Handlers} {new : Id} (h : id < new) :
    added live new callbacks id = live id := by
  rw [added]
  split
  · rfl
  · exact Function.update_of_ne (Nat.ne_of_lt h) _ _

theorem sendRequest_eq (s : Requests) (callbacks : Handlers) (dc : Dc) (after : Id)
    (hnew : s.nextRequestId ∉ s.held) :
    s.sendRequest callbacks dc after =
      { s with
        nextRequestId := s.nextRequestId + 1
        parserMap :=
          if callbacks = .user false false then s.parserMap
          else s.parserMap.insertIfNew s.nextRequestId callbacks
        requestMap := s.requestMap.insertIfNew s.nextRequestId
          ⟨if after = 0 then none else s.getRequest after, true⟩
        requestsByDc := s.requestsByDc.insert s.nextRequestId
          (if dc = 0 then -(s.getSession dc) else s.getSession dc)
        sent := (s.getSession dc, s.nextRequestId) :: s.sent } := by
  refine if_neg fun hmem => hnew ?_
  exact mem_held.mpr (.inl ⟨s.getSession dc, hmem⟩)

/-- A request is sent; `exports` says what the export requests are for then. -/
theorem Inv.send (h : Inv live air s) (hair : air ≠ some s.nextRequestId) (callbacks : Handlers)
    (dc : Dc) (after : Id) (exports : Std.ExtTreeMap Id Dc)
    (hexports : ∀ id < s.nextRequestId, live id ≠ none → exports[id]? = s.authExportRequests[id]?)
    (hexport : callbacks = .exportAuth → ∃ d, exports[s.nextRequestId]? = some d ∧ bareDcId d ≠ 0)
    (hknown : ∀ id ∈ exports, id ∈ s.authExportRequests ∨ id = s.nextRequestId) :
    Inv (added live s.nextRequestId callbacks) air
      { s.sendRequest callbacks dc after with authExportRequests := exports } := by
  have hnew := h.unknown s.nextRequestId (.inl (Nat.le_refl _))
  rw [sendRequest_eq s callbacks dc after hnew.2.2.2]
  have hlive : ∀ id, added live s.nextRequestId callbacks id ≠ none →
      id = s.nextRequestId ∨ (id < s.nextRequestId ∧ live id ≠ none) := by
    intro id hid
    by_cases hids : id = s.nextRequestId
    · exact .inl hids
    · have hold : added live s.nextRequestId callbacks id = live id := by
        rw [added]
        split
        · rfl
        · exact Function.update_of_ne hids _ _
      rw [hold] at hid
      exact .inr ⟨h.lt hid, hid⟩
  have hwaiter : ∀ dcId id, (dcId, id) ∈ s.authWaiters → id < s.nextRequestId := by
    intro dcId id hmem
    by_contra hle
    exact (h.unknown id (.inl (Nat.le_of_not_lt hle))).2.2.2
      (mem_held.mpr (.inr (.inr ⟨dcId, hmem⟩)))
  have hmapMem : ∀ id, id ∈ s.requestsByDc.insert s.nextRequestId
      (if dc = 0 then -(s.getSession dc) else s.getSession dc) →
      id ≠ s.nextRequestId → id ∈ s.requestsByDc := by
    intro id hmem hne
    rw [Std.ExtTreeMap.mem_insert, Std.LawfulEqCmp.compare_eq_iff_eq] at hmem
    exact hmem.resolve_left (Ne.symm hne)
  have hget : ∀ id, id ≠ s.nextRequestId → (s.requestsByDc.insert s.nextRequestId
      (if dc = 0 then -(s.getSession dc) else s.getSession dc))[id]? = s.requestsByDc[id]? := by
    intro id hne
    rw [Std.ExtTreeMap.getElem?_insert, if_neg]
    rw [Std.LawfulEqCmp.compare_eq_iff_eq]
    exact Ne.symm hne
  refine ⟨fun id hid => ?_, fun id hid => ?_, fun dcId id hmem hby => ?_, fun dcId id hmem hby => ?_,
    fun id hid => ?_, fun id hid => ?_, Nat.succ_pos _, h.sorted, h.once, fun id hid => ?_⟩
  · rw [Std.ExtTreeMap.mem_insert, Std.ExtTreeMap.mem_insertIfNew,
      Std.LawfulEqCmp.compare_eq_iff_eq]
    rcases hlive id hid with rfl | ⟨-, hid⟩
    · exact ⟨.inl rfl, .inl rfl⟩
    · exact ⟨.inr (h.registered id hid).1, .inr (h.registered id hid).2⟩
  · have hcount : ∀ k, ({ s with sent := (s.getSession dc, s.nextRequestId) :: s.sent } :
        Requests).held.count k = s.held.count k + if k = s.nextRequestId then 1 else 0 := by
      intro k
      rw [count_held, count_held, List.map_cons, List.count_cons]
      by_cases hk : k = s.nextRequestId
      · simp [hk]
        omega
      · simp [hk, Ne.symm hk]
    refine (hcount id).trans ?_
    rcases hlive id hid with rfl | ⟨hlt, hid⟩
    · rw [List.count_eq_zero.mpr hnew.2.2.2, if_pos rfl, if_neg hair]
    · rw [if_neg (Nat.ne_of_lt hlt)]
      exact h.placed id hid
  · have hlt := hwaiter dcId id hmem
    obtain ⟨hid, d, hd, hbare⟩ := h.waits dcId id hmem (hmapMem id hby (Nat.ne_of_lt hlt))
    refine ⟨?_, d, ?_, hbare⟩
    · rw [added_of_lt hlt]
      exact hid
    · exact (hget id (Nat.ne_of_lt hlt)).trans hd
  · have hlt := hwaiter dcId id hmem
    obtain ⟨e, d, hhelps, hbare, hnot⟩ := h.served dcId id hmem (hmapMem id hby (Nat.ne_of_lt hlt))
    have he : live e ≠ none := by
      rcases hhelps with ⟨he, -⟩ | ⟨he, -⟩
      · simp [he]
      · simp [he]
    have hlte := h.lt he
    refine ⟨e, d, ?_, hbare, hnot⟩
    rw [added_of_lt hlte]
    refine hhelps.imp ?_ ?_
    · rintro ⟨he', hd⟩
      exact ⟨he', (hexports e hlte he).trans hd⟩
    · rintro ⟨he', hd⟩
      exact ⟨he', (hget e (Nat.ne_of_lt hlte)).trans hd⟩
  · rcases hlive id (by simp [hid]) with rfl | ⟨hlt, hid'⟩
    · rw [added] at hid
      split at hid
      · simp [hnew.1] at hid
      · rw [Function.update_self] at hid
        exact hexport (Option.some.inj hid)
    · rw [added_of_lt hlt] at hid
      obtain ⟨d, hd, hbare⟩ := h.exports id hid
      exact ⟨d, (hexports id hlt hid').trans hd, hbare⟩
  · have hne : id ≠ s.nextRequestId := by
      rintro rfl
      rcases hid with hid | hid
      · exact Nat.not_succ_le_self _ hid
      · exact absurd h.next_pos (hid ▸ Nat.lt_irrefl 0)
    obtain ⟨hnone, hby, hexp, hnot⟩ := h.unknown id (hid.imp_left Nat.le_of_succ_le)
    refine ⟨?_, fun hmem => hby (hmapMem id hmem hne), fun hmem => ?_, fun hmem => hnot ?_⟩
    · by_contra hid'
      rcases hlive id hid' with heq | ⟨-, hid'⟩
      · exact hne heq
      · exact hid' hnone
    · exact (hknown id hmem).elim hexp hne
    · rw [mem_held] at hmem ⊢
      refine hmem.imp_left ?_
      rintro ⟨session, hsent⟩
      refine ⟨session, ?_⟩
      rcases List.mem_cons.mp hsent with heq | hsent
      · exact absurd (congrArg Prod.snd heq) hne
      · exact hsent
  · obtain ⟨hlt, hair'⟩ := h.final id hid
    refine ⟨Nat.lt_succ_of_lt hlt, ?_⟩
    rw [added_of_lt hlt]
    exact hair'

/-! ### Leaving -/

/-- The handlers without those of one request. -/
def dropped (live : Id → Option Handlers) (id : Id) : Id → Option Handlers :=
  Function.update live id none

@[simp] theorem dropped_self : dropped live id id = none := Function.update_self _ _ _

theorem dropped_of_ne {k : Id} (h : k ≠ id) : dropped live id k = live k :=
  Function.update_of_ne h _ _

theorem ne_of_dropped {k : Id} (h : dropped live id k ≠ none) : k ≠ id ∧ live k ≠ none := by
  by_cases hk : k = id
  · rw [hk, dropped_self] at h
    exact absurd rfl h
  · rw [dropped_of_ne hk] at h
    exact ⟨hk, h⟩

/-- Dropping a request that neither exports nor imports deserts nobody. -/
theorem Outstanding.dropped {dcId : Dc} (h : s.Outstanding live dcId)
    (hexport : live id ≠ some .exportAuth) (himport : live id ≠ some .importAuth) :
    s.Outstanding (dropped live id) dcId := by
  obtain ⟨e, d, hhelps, hbare, hnot⟩ := h
  have hne : e ≠ id := by
    rintro rfl
    rcases hhelps with ⟨he, -⟩ | ⟨he, -⟩
    · exact hexport he
    · exact himport he
  refine ⟨e, d, ?_, hbare, hnot⟩
  rw [dropped_of_ne hne]
  exact hhelps

theorem mem_erase_key {β : Type} {m : Std.ExtTreeMap Id β} {k : Id} :
    k ∈ m.erase id ↔ k ≠ id ∧ k ∈ m := by
  rw [Std.ExtTreeMap.mem_erase, ne_eq, Std.LawfulEqCmp.compare_eq_iff_eq, eq_comm]

theorem getElem?_erase_key {β : Type} {m : Std.ExtTreeMap Id β} {k : Id} (h : k ≠ id) :
    (m.erase id)[k]? = m[k]? := by
  rw [Std.ExtTreeMap.getElem?_erase, if_neg]
  rw [Std.LawfulEqCmp.compare_eq_iff_eq]
  exact Ne.symm h

/-- A request whose handlers are gone is unregistered. Nothing but its own places may have
lost it. -/
theorem Inv.leave (h : Inv live air s) (sent : List (Dc × Id))
    (hsent : ∀ k, k ≠ id → (sent.map Prod.snd).count k = (s.sent.map Prod.snd).count k)
    (hsub : sent ⊆ s.sent)
    (hserved : ∀ (dcId : Dc) (k : Id), (dcId, k) ∈ s.authWaiters → k ∈ s.requestsByDc → k ≠ id →
      s.Outstanding (dropped live id) dcId) :
    Inv (dropped live id) air { s.unregisterRequest id with sent := sent } := by
  have hheld : ∀ k, k ≠ id → ({ s.unregisterRequest id with sent := sent } : Requests).held.count k =
      s.held.count k := by
    intro k hk
    rw [count_held, count_held]
    change (sent.map Prod.snd).count k + _ + _ = _
    rw [hsent k hk]
    rfl
  refine ⟨fun k hk => ?_, fun k hk => ?_, fun dcId k hmem hby => ?_, fun dcId k hmem hby => ?_,
    fun k hk => ?_, fun k hk => ?_, h.next_pos, h.sorted, h.once, fun k hk => ?_⟩
  · obtain ⟨hne, hk⟩ := ne_of_dropped hk
    exact ⟨mem_erase_key.mpr ⟨hne, (h.registered k hk).1⟩,
      mem_erase_key.mpr ⟨hne, (h.registered k hk).2⟩⟩
  · obtain ⟨hne, hk⟩ := ne_of_dropped hk
    rw [hheld k hne, h.placed k hk]
  · obtain ⟨hne, hby⟩ := mem_erase_key.mp hby
    obtain ⟨hk, d, hd, hbare⟩ := h.waits dcId k hmem hby
    exact ⟨by rwa [dropped_of_ne hne], d, (getElem?_erase_key hne).trans hd, hbare⟩
  · obtain ⟨hne, hby⟩ := mem_erase_key.mp hby
    obtain ⟨e, d, hhelps, hbare, hnot⟩ := hserved dcId k hmem hby hne
    have hide : e ≠ id := by
      rintro rfl
      rcases hhelps with ⟨he, -⟩ | ⟨he, -⟩
      · simp at he
      · simp at he
    exact ⟨e, d, hhelps.imp_right fun hd => ⟨hd.1, (getElem?_erase_key hide).trans hd.2⟩, hbare, hnot⟩
  · have hsome : dropped live id k ≠ none := by simp [hk]
    rw [dropped_of_ne (ne_of_dropped hsome).1] at hk
    exact h.exports k hk
  · obtain ⟨hnone, hby, hexp, hnot⟩ := h.unknown k hk
    refine ⟨?_, fun hmem => hby (mem_erase_key.mp hmem).2, hexp, fun hmem => hnot ?_⟩
    · by_cases hkid : k = id
      · rw [hkid, dropped_self]
      · rw [dropped_of_ne hkid, hnone]
    · rw [mem_held] at hmem ⊢
      refine hmem.imp_left ?_
      rintro ⟨session, hmem⟩
      exact ⟨session, hsub hmem⟩
  · obtain ⟨hlt, hlive⟩ := h.final k hk
    refine ⟨hlt, fun hk => ?_⟩
    exact hlive (ne_of_dropped hk).2

theorem Inv.landed (h : Inv live (some id) s) (hid : live id = none) : Inv live none s := by
  have hne : ∀ k, live k ≠ none → k ≠ id := fun k hk heq => hk (heq ▸ hid)
  refine ⟨h.registered, fun k hk => ?_, h.waits, h.served, h.exports, h.unknown, h.next_pos,
    h.sorted, h.once, fun k hk => ⟨(h.final k hk).1, fun hlive => ?_⟩⟩
  · rw [h.placed k hk, if_neg fun heq => hne k hk (Option.some.inj heq).symm]
    rfl
  · exact absurd (Option.some.inj ((h.final k hk).2 hlive)).symm (hne k hlive)

theorem Inv.unregister (h : Inv live air s)
    (hserved : ∀ (dcId : Dc) (k : Id), (dcId, k) ∈ s.authWaiters → k ∈ s.requestsByDc → k ≠ id →
      s.Outstanding (dropped live id) dcId) :
    Inv (dropped live id) air (s.unregisterRequest id) :=
  h.leave s.sent (fun _ _ => rfl) (List.Subset.refl _) hserved

theorem Inv.cancel (h : Inv live air s) (hexport : live id ≠ some .exportAuth)
    (himport : live id ≠ some .importAuth) : Inv (dropped live id) air (s.cancel id) := by
  have hserved : ∀ (dcId : Dc) (k : Id), (dcId, k) ∈ s.authWaiters → k ∈ s.requestsByDc → k ≠ id →
      s.Outstanding (dropped live id) dcId := fun dcId k hmem hby _ =>
    (h.served dcId k hmem hby).dropped hexport himport
  rw [Requests.cancel]
  cases s.requestsByDc[id]? with
  | none =>
    have hleft := h.unregister hserved
    exact hleft.frame rfl (fun _ hk => hk) rfl rfl rfl rfl rfl rfl
  | some d =>
    have hleft : Inv (dropped live id) air
        { s.unregisterRequest id with sent := s.sent.erase (s.getSession |d|, id) } := by
      refine h.leave _ (fun k hk => ?_) List.erase_subset hserved
      by_cases hmem : (s.getSession |d|, id) ∈ s.sent
      · have hperm := (List.perm_cons_erase hmem).map Prod.snd
        rw [hperm.count_eq, List.map_cons, List.count_cons_of_ne (Ne.symm hk)]
      · rw [List.erase_of_not_mem hmem]
    exact hleft.frame rfl (fun _ hk => hk) rfl rfl rfl rfl rfl rfl

/-! ### Sending again -/

theorem exists_dc (h : id ∈ s.requestsByDc) : ∃ d, s.requestsByDc[id]? = some d :=
  Option.isSome_iff_exists.mp (Std.ExtTreeMap.mem_iff_isSome_getElem?.mp h)

theorem resend_delayedRequests : (s.resend id).delayedRequests = s.delayedRequests := by
  rw [resend]
  split
  · split
    · rw [Requests.sendPrepared]
      split
      · rfl
      · rfl
    · rfl
  · rfl

/-- A request that is taken from the front of the delayed ones is in no place. -/
theorem Inv.popped {p : Id × Int} {rest : List (Id × Int)} (h : Inv live none s)
    (hdelayed : s.delayedRequests = p :: rest) :
    Inv live (some p.1) { s with delayedRequests := rest } := by
  have hheld : ∀ k, s.held.count k = ({ s with delayedRequests := rest } : Requests).held.count k +
      if p.1 = k then 1 else 0 := by
    intro k
    rw [count_held, count_held, hdelayed, List.map_cons, List.count_cons]
    simp only [beq_iff_eq]
    omega
  have hsorted := h.sorted
  rw [hdelayed, List.pairwise_cons] at hsorted
  refine ⟨h.registered, fun k hk => ?_, h.waits, h.served, h.exports, fun k hk => ?_, h.next_pos,
    hsorted.2, h.once, fun k hk => ⟨(h.final k hk).1, fun hlive => ?_⟩⟩
  · have hplaced := h.placed k hk
    rw [hheld k, if_neg (Option.some_ne_none _).symm] at hplaced
    by_cases hpk : p.1 = k
    · rw [if_pos hpk] at hplaced
      rw [if_pos (congrArg some hpk)]
      exact Nat.succ.inj hplaced
    · rw [if_neg hpk] at hplaced
      rw [if_neg fun heq => hpk (Option.some.inj heq)]
      exact hplaced
  · obtain ⟨hnone, hby, hexp, hnot⟩ := h.unknown k hk
    refine ⟨hnone, hby, hexp, fun hmem => hnot ?_⟩
    rw [mem_held] at hmem ⊢
    refine hmem.imp_right (Or.imp_left fun hmem => ?_)
    rw [hdelayed]
    exact List.mem_cons_of_mem _ hmem
  · cases (h.final k hk).2 hlive

theorem Inv.resend (h : Inv live none s) {p : Id × Int} {rest : List (Id × Int)}
    (hdelayed : s.delayedRequests = p :: rest) :
    Inv live none ({ s with delayedRequests := rest }.resend p.1) := by
  by_cases hid : live p.1 = none
  · have hknown : ¬(s.nextRequestId ≤ p.1 ∨ p.1 = 0) := by
      intro hk
      refine (h.unknown p.1 hk).2.2.2 (mem_held.mpr (.inr (.inl ?_)))
      rw [hdelayed]
      exact List.mem_cons_self
    rw [not_or, Nat.not_le] at hknown
    have hheld : ∀ k, ({ s with delayedRequests := rest } : Requests).held.count k ≤
        s.held.count k := by
      intro k
      rw [count_held, count_held, hdelayed, List.map_cons]
      exact Nat.add_le_add_right (Nat.add_le_add_left List.count_le_count_cons _) _
    have hsorted := h.sorted
    rw [hdelayed, List.pairwise_cons] at hsorted
    have hpopped : Inv live none { s with delayedRequests := rest } := by
      refine ⟨h.registered, fun k hk => ?_, h.waits, h.served, h.exports, fun k hk => ?_, h.next_pos,
        hsorted.2, h.once, h.final⟩
      · have hpk : p.1 ≠ k := fun heq => hk (heq ▸ hid)
        rw [← h.placed k hk, count_held, count_held, hdelayed, List.map_cons,
          List.count_cons_of_ne hpk]
      · obtain ⟨hnone, hby, hexp, hnot⟩ := h.unknown k hk
        refine ⟨hnone, hby, hexp, fun hmem => hnot ?_⟩
        have hcount := hheld k
        rw [← List.count_pos_iff] at hmem ⊢
        exact hmem.trans_le hcount
    rw [Requests.resend]
    split
    · split
      · exact hpopped.sendPrepared_other hid hknown.1 hknown.2 _
      · exact hpopped
    · exact hpopped
  · have hpopped := h.popped hdelayed
    have hfinal : p.1 ∉ s.finals := fun hmem => by
      cases (h.final p.1 hmem).2 hid
    obtain ⟨hby, hmap⟩ := hpopped.registered p.1 hid
    obtain ⟨d, hd⟩ := exists_dc hby
    have hresent : ({ s with delayedRequests := rest } : Requests).resend p.1 =
        ({ s with delayedRequests := rest } : Requests).sendPrepared
          (({ s with delayedRequests := rest } : Requests).getSession |d|) p.1 := by
      rw [Requests.resend, hd]
      exact if_pos hmap
    rw [hresent]
    exact hpopped.sendPrepared hid hfinal _

theorem Inv.resendDue {l : List (Id × Int)} (h : Inv live none s) (hl : s.delayedRequests = l) :
    Inv live none (s.resendDue l) := by
  induction l generalizing s with
  | nil => exact h
  | cons p rest ih =>
    rw [Requests.resendDue]
    split
    · exact ih (h.resend hl) resend_delayedRequests
    · exact h

theorem Inv.checkDelayedRequests (h : Inv live none s) : Inv live none s.checkDelayedRequests :=
  h.resendDue rfl

/-! ### The default handling of errors -/

/-- Nothing happens to handlers. -/
structure Keeps (s s' : Requests) : Prop where
  parserMap : s'.parserMap = s.parserMap
  handling : s'.handling = s.handling
  finals : s'.finals = s.finals

theorem Keeps.refl (s : Requests) : Keeps s s := ⟨rfl, rfl, rfl⟩

theorem Keeps.trans {s'' : Requests} (h : Keeps s s') (h' : Keeps s' s'') : Keeps s s'' :=
  ⟨h'.parserMap.trans h.parserMap, h'.handling.trans h.handling, h'.finals.trans h.finals⟩

theorem sendPrepared_keeps (s : Requests) (session : Dc) (id : Id) :
    Keeps s (s.sendPrepared session id) := by
  rw [sendPrepared]
  split
  · exact .refl s
  · exact ⟨rfl, rfl, rfl⟩

theorem setMainDcId_keeps (s : Requests) (newdc : Dc) : Keeps s (s.setMainDcId newdc) := by
  rw [setMainDcId]
  split
  · exact .refl s
  · exact ⟨rfl, rfl, rfl⟩

theorem resend_keeps (s : Requests) (id : Id) : Keeps s (s.resend id) := by
  rw [resend]
  split
  · split
    · exact sendPrepared_keeps s _ id
    · exact .refl s
  · exact .refl s

theorem resendDue_keeps (s : Requests) (l : List (Id × Int)) : Keeps s (s.resendDue l) := by
  induction l generalizing s with
  | nil => exact .refl s
  | cons p rest ih =>
    rw [resendDue]
    split
    · have hpopped : Keeps s { s with delayedRequests := rest } := ⟨rfl, rfl, rfl⟩
      exact (hpopped.trans (resend_keeps _ p.1)).trans (ih _)
    · exact .refl s

/-- The request that is handled is the one whose handlers were taken out. -/
def Linked (live : Id → Option Handlers) (id : Id) (s : Requests) : Prop :=
  ∀ k, s.parserMap[k]? = dropped live id k

theorem Linked.keeps (h : Linked live id s) (hkeeps : Keeps s s') : Linked live id s' := by
  intro k
  rw [hkeeps.parserMap]
  exact h k

theorem Linked.handlers (h : Linked live id s) : (fun k => s.parserMap[k]?) = dropped live id :=
  funext h

/-- The request was taken care of. -/
def Settled (id : Id) (callbacks : Handlers) (s s' : Requests) : Prop :=
  ∃ live, Inv live none s' ∧ live id = some callbacks ∧ Linked live id s' ∧
    s'.handling = s.handling

theorem Inv.setMainDcId (h : Inv live (some id) s) (hid : live id ≠ none) (hlink : Linked live id s)
    {newdc : Dc} (hkills : ¬s.Kills newdc) : Inv live (some id) (s.setMainDcId newdc) := by
  rw [Requests.setMainDcId]
  split
  · exact h
  · next hmain =>
    have hstays : ∀ k, live k ≠ none → ∀ session, (session, k) ∈ s.sent →
        session ≠ s.mainDcId ∧ session ≠ newdc := by
      intro k hk session hmem
      have hne : k ≠ id := by
        rintro rfl
        exact h.not_held hid (mem_held.mpr (.inl ⟨session, hmem⟩))
      have hmap : k ∈ s.parserMap := by
        rw [Std.ExtTreeMap.mem_iff_isSome_getElem?, hlink k, dropped_of_ne hne]
        exact Option.isSome_iff_ne_none.mpr hk
      rw [← not_or]
      exact fun hkilled => hkills ⟨Ne.symm hmain, _, hmem, hmap, hkilled⟩
    have hsent : ∀ k, live k ≠ none →
        ((s.sent.filter fun p => p.1 ≠ s.mainDcId ∧ p.1 ≠ newdc).map Prod.snd).count k =
          (s.sent.map Prod.snd).count k := by
      intro k hk
      rw [List.count_eq_countP, List.count_eq_countP, List.countP_map, List.countP_map,
        List.countP_filter]
      refine List.countP_congr fun p hp => ?_
      simp only [Function.comp_apply, Bool.and_eq_true, beq_iff_eq, decide_eq_true_eq,
        and_iff_left_iff_imp]
      rintro rfl
      exact hstays p.2 hk p.1 hp
    refine ⟨h.registered, fun k hk => ?_, h.waits, h.served, h.exports, fun k hk => ?_, h.next_pos,
      h.sorted, h.once, h.final⟩
    · rw [← h.placed k hk, count_held, count_held, hsent k hk]
    · obtain ⟨hnone, hby, hexp, hnot⟩ := h.unknown k hk
      refine ⟨hnone, hby, hexp, fun hmem => hnot ?_⟩
      rw [mem_held] at hmem ⊢
      refine hmem.imp_left ?_
      rintro ⟨session, hmem⟩
      exact ⟨session, (List.mem_filter.mp hmem).1⟩

theorem getElem?_insert_key {β : Type} {m : Std.ExtTreeMap Id β} {k : Id} {v : β} (h : k ≠ id) :
    (m.insert id v)[k]? = m[k]? := by
  rw [Std.ExtTreeMap.getElem?_insert, if_neg]
  rw [Std.LawfulEqCmp.compare_eq_iff_eq]
  exact Ne.symm h

theorem getElem?_insertIfNew_key {β : Type} {m : Std.ExtTreeMap Id β} {k : Id} {v : β}
    (h : k ≠ id) : (m.insertIfNew id v)[k]? = m[k]? := by
  rw [Std.ExtTreeMap.getElem?_insertIfNew, if_neg]
  exact fun heq => h (Std.LawfulEqCmp.eq_of_compare heq.1).symm

theorem getElem?_insertIfNew_new {β : Type} {m : Std.ExtTreeMap Id β} {v : β} (h : id ∉ m) :
    (m.insertIfNew id v)[id]? = some v := by
  rw [Std.ExtTreeMap.getElem?_insertIfNew, if_pos ⟨Std.ReflCmp.compare_self, h⟩]

theorem mem_insert_key {β : Type} {m : Std.ExtTreeMap Id β} {k : Id} {v : β} (h : id ∈ m) :
    k ∈ m.insert id v ↔ k ∈ m := by
  rw [Std.ExtTreeMap.mem_insert, Std.LawfulEqCmp.compare_eq_iff_eq]
  refine ⟨fun hk => ?_, .inr⟩
  rcases hk with rfl | hk
  · exact h
  · exact hk

/-- The request is registered with another dc; those that wait for an import are not
deserted by that. -/
theorem Inv.register (h : Inv live (some id) s) (hid : live id ≠ none) (d : Dc)
    (hmoves : live id = some .importAuth → ∀ old, s.requestsByDc[id]? = some old →
      bareDcId d ≠ bareDcId old → s.Awaited (bareDcId old) →
        s.Outstanding (dropped live id) (bareDcId old)) :
    Inv live (some id) (s.registerRequest id d) := by
  have hreg := (h.registered id hid).1
  have hmem : ∀ k, k ∈ (s.registerRequest id d).requestsByDc ↔ k ∈ s.requestsByDc := fun k =>
    mem_insert_key hreg
  refine ⟨fun k hk => ⟨(hmem k).mpr (h.registered k hk).1, (h.registered k hk).2⟩, h.placed,
    fun dcId k hk hby => ?_, fun dcId k hk hby => ?_, h.exports, fun k hk => ?_, h.next_pos,
    h.sorted, h.once, h.final⟩
  · have hne : k ≠ id := by
      rintro rfl
      exact h.not_held hid (mem_held.mpr (.inr (.inr ⟨dcId, hk⟩)))
    obtain ⟨hlive, d', hd', hbare⟩ := h.waits dcId k hk ((hmem k).mp hby)
    exact ⟨hlive, d', (getElem?_insert_key hne).trans hd', hbare⟩
  · have hother : ∀ e d', e ≠ id → ((live e = some .exportAuth ∧ s.authExportRequests[e]? = some d') ∨
        (live e = some .importAuth ∧ s.requestsByDc[e]? = some d')) → bareDcId d' = dcId →
        (dcId, e) ∉ s.authWaiters → (s.registerRequest id d).Outstanding live dcId := by
      intro e d' hne hhelps hbare hnot
      exact ⟨e, d', hhelps.imp_right fun he => ⟨he.1, (getElem?_insert_key hne).trans he.2⟩, hbare,
        hnot⟩
    obtain ⟨e, d', hhelps, hbare, hnot⟩ := h.served dcId k hk ((hmem k).mp hby)
    by_cases he : e = id
    · subst he
      rcases hhelps with hexport | ⟨himport, hd'⟩
      · exact ⟨e, d', .inl hexport, hbare, hnot⟩
      · by_cases hsame : bareDcId d = bareDcId d'
        · exact ⟨e, d, .inr ⟨himport, Std.ExtTreeMap.getElem?_insert_self⟩, hsame.trans hbare, hnot⟩
        · have hawaited : s.Awaited (bareDcId d') := ⟨k, hbare ▸ hk, (hmem k).mp hby⟩
          obtain ⟨e', d'', hhelps', hbare', hnot'⟩ := hmoves himport d' hd' hsame hawaited
          have hne : e' ≠ e := by
            rintro rfl
            simp at hhelps'
          rw [dropped_of_ne hne] at hhelps'
          rw [hbare] at hbare' hnot'
          exact hother e' d'' hne hhelps' hbare' hnot'
    · exact hother e d' he hhelps hbare hnot
  · obtain ⟨hnone, hby, hexp, hnot⟩ := h.unknown k hk
    exact ⟨hnone, fun hk => hby ((hmem k).mp hk), hexp, hnot⟩

theorem Inv.migrate (h : Inv live (some id) s) {callbacks : Handlers}
    (hid : live id = some callbacks) (hlink : Linked live id s) (hfinal : id ∉ s.finals)
    {newdc : Dc} {d : Dc} (hd : s.requestsByDc[id]? = some d) (hd0 : d ≠ 0) (hnew : newdc ≠ 0)
    (hstrands : ¬s.MigrateStrands id callbacks newdc) :
    ∃ s', s.migrate id newdc = (true, s') ∧ Settled id callbacks s s' := by
  have hlive : live id ≠ none := by simp [hid]
  have hmap := (h.registered id hlive).2
  have hne := h.ne_zero hlive
  have hstrands : ¬(if d < 0 then
      s.Kills newdc ∨ (callbacks = .importAuth ∧ s.Deserted (bareDcId d))
    else callbacks = .importAuth ∧ s.Deserted (bareDcId d) ∧
      bareDcId (shiftDcId newdc (getDcIdShift d)) ≠ bareDcId d) := fun hif =>
    hstrands ⟨d, hd, hif⟩
  rw [Requests.migrate, hd]
  simp only [hne, hd0, hnew, or_self, if_false]
  by_cases hneg : d < 0
  · rw [if_pos hneg, not_or] at hstrands
    simp only [hneg, if_true]
    have hmain := h.setMainDcId hlive hlink hstrands.1
    have hby : (s.setMainDcId newdc).requestsByDc = s.requestsByDc := by
      rw [Requests.setMainDcId]
      split <;> rfl
    have hmap' : (s.setMainDcId newdc).requestMap = s.requestMap := by
      rw [Requests.setMainDcId]
      split <;> rfl
    have hwaiters : (s.setMainDcId newdc).authWaiters = s.authWaiters := by
      rw [Requests.setMainDcId]
      split <;> rfl
    have hexports : (s.setMainDcId newdc).authExportRequests = s.authExportRequests := by
      rw [Requests.setMainDcId]
      split <;> rfl
    have hregistered : Inv live (some id) ((s.setMainDcId newdc).registerRequest id (-newdc)) := by
      refine hmain.register hlive (-newdc) fun himport old hold _ hawaited => ?_
      rw [hby, hd] at hold
      cases hold
      rw [hid] at himport
      rw [Awaited, hwaiters, hby] at hawaited
      rw [Outstanding, hexports, hby, hwaiters, ← hlink.handlers]
      by_contra hnot
      exact hstrands.2 ⟨Option.some.inj himport, hawaited, hnot⟩
    rw [if_pos (hmap' ▸ hmap)]
    refine ⟨_, rfl, live, hregistered.sendPrepared hlive ?_ _, hid, ?_, ?_⟩
    · change id ∉ (s.setMainDcId newdc).finals
      rw [(setMainDcId_keeps s newdc).finals]
      exact hfinal
    · have hkeeps : Keeps s ((s.setMainDcId newdc).registerRequest id (-newdc)) :=
        (setMainDcId_keeps s newdc).trans ⟨rfl, rfl, rfl⟩
      exact hlink.keeps (hkeeps.trans (sendPrepared_keeps _ _ _))
    · rw [(sendPrepared_keeps _ _ _).handling]
      exact (setMainDcId_keeps s newdc).handling
  · rw [if_neg hneg] at hstrands
    simp only [hneg, if_false]
    have hregistered : Inv live (some id)
        (s.registerRequest id (shiftDcId newdc (getDcIdShift d))) := by
      refine h.register hlive _ fun himport old hold hother hawaited => ?_
      rw [hd] at hold
      cases hold
      rw [hid] at himport
      rw [← hlink.handlers]
      by_contra hnot
      exact hstrands ⟨Option.some.inj himport, ⟨hawaited, hnot⟩, hother⟩
    rw [if_pos hmap]
    refine ⟨_, rfl, live, hregistered.sendPrepared hlive hfinal _, hid, ?_, ?_⟩
    · have hkeeps : Keeps s (s.registerRequest id (shiftDcId newdc (getDcIdShift d))) :=
        ⟨rfl, rfl, rfl⟩
      exact hlink.keeps (hkeeps.trans (sendPrepared_keeps _ _ _))
    · rw [(sendPrepared_keeps _ _ _).handling]
      rfl

theorem insertDelayed_ne_none {sendAt : Int} {l : List (Id × Int)} (h : id ∉ l.map Prod.fst) :
    insertDelayed id sendAt l ≠ none := by
  induction l with
  | nil => simp [insertDelayed]
  | cons p l ih =>
    rw [List.map_cons, List.mem_cons, not_or] at h
    rw [insertDelayed, if_neg (Ne.symm h.1)]
    split
    · simp
    · simpa using ih h.2

theorem insertDelayed_perm {sendAt : Int} {l l' : List (Id × Int)}
    (h : insertDelayed id sendAt l = some l') : l'.Perm ((id, sendAt) :: l) := by
  induction l generalizing l' with
  | nil =>
    cases h
    exact List.Perm.refl _
  | cons p l ih =>
    rw [insertDelayed] at h
    split at h
    · cases h
    · split at h
      · cases h
        exact List.Perm.refl _
      · obtain ⟨l'', hl, rfl⟩ := Option.map_eq_some_iff.mp h
        exact ((ih hl).cons p).trans (List.Perm.swap _ _ _)

/-- The request is put in front of the first one that is to be sent later. -/
theorem insertDelayed_sorted {sendAt : Int} {l l' : List (Id × Int)}
    (h : insertDelayed id sendAt l = some l') (hl : l.Pairwise fun p q => p.2 ≤ q.2) :
    l'.Pairwise fun p q => p.2 ≤ q.2 := by
  induction l generalizing l' with
  | nil =>
    cases h
    exact List.pairwise_singleton _ _
  | cons p l ih =>
    rw [List.pairwise_cons] at hl
    rw [insertDelayed] at h
    split at h
    · cases h
    · split at h
      · next hlt =>
        cases h
        refine List.pairwise_cons.mpr ⟨fun q hq => ?_, List.pairwise_cons.mpr hl⟩
        rcases List.mem_cons.mp hq with rfl | hq
        · exact hlt.le
        · exact hlt.le.trans (hl.1 q hq)
      · next hge =>
        obtain ⟨l'', hl'', rfl⟩ := Option.map_eq_some_iff.mp h
        refine List.pairwise_cons.mpr ⟨fun q hq => ?_, ih hl'' hl.2⟩
        rcases List.mem_cons.mp ((insertDelayed_perm hl'').mem_iff.mp hq) with rfl | hq
        · exact not_lt.mp hge
        · exact hl.1 q hq

theorem Inv.delayed (h : Inv live (some id) s) (hid : live id ≠ none) (hfinal : id ∉ s.finals)
    {l : List (Id × Int)} {sendAt : Int} (hperm : l.Perm ((id, sendAt) :: s.delayedRequests))
    (hsorted : l.Pairwise fun p q => p.2 ≤ q.2) :
    Inv live none { s with delayedRequests := l } := by
  refine h.place hid hfinal ?_ hsorted (fun dcId k hk => .inl hk) h.served
  have hfst := hperm.map Prod.fst
  rw [List.map_cons] at hfst
  rw [held, held, List.append_assoc, List.append_assoc]
  exact ((hfst.append_right _).append_left _).trans List.perm_middle

theorem Inv.delay (h : Inv live (some id) s) {callbacks : Handlers}
    (hid : live id = some callbacks) (hlink : Linked live id s) (hfinal : id ∉ s.finals)
    (error : RPCError) : ∃ s', s.delay id error = (true, s') ∧ Settled id callbacks s s' := by
  have hlive : live id ≠ none := by simp [hid]
  have hnot : id ∉ s.delayedRequests.map Prod.fst := fun hmem =>
    h.not_held hlive (mem_held.mpr (.inr (.inl hmem)))
  rw [Requests.delay, if_neg (h.ne_zero hlive)]
  cases hl : insertDelayed id (s.now + (s.delaySecs id error).1 * 1000 + 10) s.delayedRequests with
  | none => exact absurd hl (insertDelayed_ne_none hnot)
  | some l =>
    have hsecs : Inv live (some id) { s with requestsDelays := (s.delaySecs id error).2 } :=
      h.frame rfl (fun _ hk => hk) rfl rfl rfl rfl rfl rfl
    have hplaced := hsecs.delayed hlive hfinal (insertDelayed_perm hl)
      (insertDelayed_sorted hl h.sorted)
    have hkeeps : Keeps s { s with
        requestsDelays := (s.delaySecs id error).2, delayedRequests := l } := ⟨rfl, rfl, rfl⟩
    have hresent := hkeeps.trans (resendDue_keeps _ l)
    refine ⟨_, ?_, live, hplaced.checkDelayedRequests, hid, hlink.keeps hresent, hresent.handling⟩
    simp only [hl]

theorem mem_waiters {dcId : Dc} : id ∈ s.waiters dcId ↔ (dcId, id) ∈ s.authWaiters := by
  rw [waiters, List.mem_map]
  constructor
  · rintro ⟨p, hp, rfl⟩
    rw [List.mem_filter, decide_eq_true_eq] at hp
    exact hp.2 ▸ hp.1
  · intro hmem
    exact ⟨_, List.mem_filter.mpr ⟨hmem, by simp⟩, rfl⟩

theorem Inv.join (h : Inv live (some id) s) (hid : live id ≠ none) (hfinal : id ∉ s.finals) {d : Dc}
    (hd : s.requestsByDc[id]? = some d)
    (hserved : s.Outstanding (dropped live id) (bareDcId |d|)) :
    Inv live none { s with authWaiters := s.authWaiters ++ [(bareDcId |d|, id)] } := by
  have hother : ∀ dcId e, (dcId, e) ∉ s.authWaiters → ¬(e = id ∧ dcId = bareDcId |d|) →
      (dcId, e) ∉ s.authWaiters ++ [(bareDcId |d|, id)] := by
    intro dcId e hnot hne hmem
    rcases List.mem_append.mp hmem with hmem | hmem
    · exact hnot hmem
    · rw [List.mem_singleton, Prod.mk.injEq] at hmem
      exact hne hmem.symm
  refine h.place hid hfinal ?_ h.sorted (fun dcId k hk => ?_) (fun dcId k hk hby => ?_)
  · rw [held, held, List.map_append, ← List.append_assoc]
    exact List.perm_append_comm
  · rcases List.mem_append.mp hk with hk | hk
    · exact .inl hk
    · rw [List.mem_singleton, Prod.mk.injEq] at hk
      exact .inr ⟨hk.2, d, hd, hk.1.symm⟩
  · have hjoined : ({ s with authWaiters := s.authWaiters ++ [(bareDcId |d|, id)] } :
        Requests).Outstanding live (bareDcId |d|) := by
      obtain ⟨e, d', hhelps, hbare, hnot⟩ := hserved
      have hne : e ≠ id := by
        rintro rfl
        simp at hhelps
      rw [dropped_of_ne hne] at hhelps
      exact ⟨e, d', hhelps, hbare, hother _ e hnot fun heq => hne heq.1⟩
    by_cases hdc : dcId = bareDcId |d|
    · exact hdc ▸ hjoined
    · have hk : (dcId, k) ∈ s.authWaiters := by
        rcases List.mem_append.mp hk with hk | hk
        · exact hk
        · rw [List.mem_singleton, Prod.mk.injEq] at hk
          exact absurd hk.1 hdc
      obtain ⟨e, d', hhelps, hbare, hnot⟩ := h.served dcId k hk hby
      exact ⟨e, d', hhelps, hbare, hother dcId e hnot fun heq => hdc heq.2⟩

theorem sendRequest_exports (callbacks : Handlers) (dc : Dc) (after : Id)
    (hnew : s.nextRequestId ∉ s.held) :
    (s.sendRequest callbacks dc after).authExportRequests = s.authExportRequests ∧
      (s.sendRequest callbacks dc after).handling = s.handling ∧
      (s.sendRequest callbacks dc after).finals = s.finals ∧
      (s.sendRequest callbacks dc after).parserMap =
        if callbacks = .user false false then s.parserMap
        else s.parserMap.insertIfNew s.nextRequestId callbacks := by
  rw [sendRequest_eq s callbacks dc after hnew]
  exact ⟨rfl, rfl, rfl, rfl⟩

theorem Linked.added (h : Linked live id s) {new : Id} (hnew : live new = none) (hne : new ≠ id)
    (callbacks : Handlers) (hparser : s'.parserMap =
      if callbacks = .user false false then s.parserMap else s.parserMap.insertIfNew new callbacks) :
    Linked (added live new callbacks) id s' := by
  intro k
  rw [Requests.added]
  by_cases hcallbacks : callbacks = .user false false
  · rw [if_pos hcallbacks] at hparser ⊢
    rw [hparser]
    exact h k
  · rw [if_neg hcallbacks] at hparser ⊢
    rw [hparser]
    by_cases hk : k = new
    · subst hk
      have hget : s.parserMap[k]? = none := by rw [h k, dropped_of_ne hne, hnew]
      have hnot : k ∉ s.parserMap := by
        rw [Std.ExtTreeMap.mem_iff_isSome_getElem?, hget]
        exact Bool.false_ne_true
      rw [getElem?_insertIfNew_new hnot, dropped_of_ne hne, Function.update_self]
    · rw [getElem?_insertIfNew_key hk, h k, dropped, dropped]
      by_cases hkid : k = id
      · rw [hkid, Function.update_self, Function.update_self]
      · rw [Function.update_of_ne hkid, Function.update_of_ne hkid, Function.update_of_ne hk]

theorem Inv.waitForAuth (h : Inv live (some id) s) {callbacks : Handlers}
    (hid : live id = some callbacks) (hlink : Linked live id s) (hfinal : id ∉ s.finals) {d : Dc}
    (hd : s.requestsByDc[id]? = some d) (badGuestDc : Bool)
    (hgoes : ¬(bareDcId |d| = 0 ∨ bareDcId |d| = s.mainDcId ∨ s.hasAuthorization = false))
    (hstrands : ¬s.JoinStrands (bareDcId |d|)) :
    ∃ s', s.waitForAuth id badGuestDc = (true, s') ∧ Settled id callbacks s s' := by
  have hlive : live id ≠ none := by simp [hid]
  rw [Requests.waitForAuth, hd, Option.getD_some, if_neg hgoes]
  refine ⟨_, rfl, ?_⟩
  by_cases hempty : s.waiters (bareDcId |d|) = []
  · -- an export request is sent, and it is the one that is waited for
    have hnew := h.unknown s.nextRequestId (.inl (Nat.le_refl _))
    have hne : s.nextRequestId ≠ id := Nat.ne_of_gt (h.lt hlive)
    have hget : (s.authExportRequests.insertIfNew s.nextRequestId |d|)[s.nextRequestId]? =
        some |d| := getElem?_insertIfNew_new hnew.2.2.1
    have hother : ∀ k, k ≠ s.nextRequestId →
        (s.authExportRequests.insertIfNew s.nextRequestId |d|)[k]? = s.authExportRequests[k]? :=
      fun k hk => getElem?_insertIfNew_key hk
    obtain ⟨hexports, hhandling, hfinals, hparser⟩ :=
      sendRequest_exports .exportAuth 0 0 hnew.2.2.2
    have hsent : Inv (added live s.nextRequestId .exportAuth) (some id) (s.sendExport |d|) := by
      rw [sendExport, hexports]
      refine h.send (fun heq => hne (Option.some.inj heq).symm) .exportAuth 0 0 _ (fun k hk _ => ?_)
        (fun _ => ⟨|d|, hget, fun hzero => hgoes (.inl hzero)⟩) (fun k hk => ?_)
      · exact hother k (Nat.ne_of_lt hk)
      · rw [Std.ExtTreeMap.mem_insertIfNew, Std.LawfulEqCmp.compare_eq_iff_eq] at hk
        exact hk.symm.imp_right Eq.symm
    have hlive' : added live s.nextRequestId .exportAuth id = some callbacks := by
      rw [added_of_lt (h.lt hlive), hid]
    have hby : (s.sendExport |d|).requestsByDc[id]? = some d := by
      rw [sendExport, sendRequest_eq s .exportAuth 0 0 hnew.2.2.2]
      exact (getElem?_insert_key (Ne.symm hne)).trans hd
    have hexport : (s.sendExport |d|).authExportRequests[s.nextRequestId]? = some |d| := by
      rw [sendExport, hexports]
      exact hget
    have hwaiters : (s.sendExport |d|).authWaiters = s.authWaiters := by
      rw [sendExport, sendRequest_eq s .exportAuth 0 0 hnew.2.2.2]
    have hserved : (s.sendExport |d|).Outstanding
        (dropped (added live s.nextRequestId .exportAuth) id) (bareDcId |d|) := by
      refine ⟨s.nextRequestId, |d|, .inl ⟨?_, hexport⟩, rfl, fun hmem => ?_⟩
      · rw [dropped_of_ne hne, added, if_neg (by simp), Function.update_self]
      · rw [hwaiters] at hmem
        exact hnew.2.2.2 (mem_held.mpr (.inr (.inr ⟨_, hmem⟩)))
    have hkept : (s.sendExport |d|).finals = s.finals := hfinals
    rw [if_pos hempty]
    have hjoined := hsent.join (by simp [hlive']) (hkept ▸ hfinal) hby hserved
    refine ⟨_, hjoined.frame rfl (fun _ hk => hk) rfl rfl rfl rfl rfl rfl, hlive', ?_, ?_⟩
    · exact hlink.added hnew.1 hne .exportAuth hparser
    · exact hhandling
  · have hserved : s.Outstanding (dropped live id) (bareDcId |d|) := by
      rw [← hlink.handlers]
      by_contra hnot
      exact hstrands ⟨hempty, hnot⟩
    rw [if_neg hempty]
    have hjoined := h.join hlive hfinal hd hserved
    exact ⟨live, hjoined.frame rfl (fun _ hk => hk) rfl rfl rfl rfl rfl rfl, hid, hlink, rfl⟩

theorem Inv.initConnection (h : Inv live (some id) s) {callbacks : Handlers}
    (hid : live id = some callbacks) (hlink : Linked live id s) (hfinal : id ∉ s.finals) {d : Dc}
    (hd : s.requestsByDc[id]? = some d) (hd0 : d ≠ 0) :
    ∃ s', s.initConnection id = (true, s') ∧ Settled id callbacks s s' := by
  have hlive : live id ≠ none := by simp [hid]
  obtain ⟨request, hrequest⟩ := Option.isSome_iff_exists.mp
    (Std.ExtTreeMap.mem_iff_isSome_getElem?.mp (h.registered id hlive).2)
  rw [Requests.initConnection, hrequest, hd]
  simp only [hd0, if_false]
  have hmarked : Inv live (some id)
      { s with requestMap := s.requestMap.insert id { request with needsLayer := true } } :=
    h.frame rfl (fun k hk => (mem_insert_key (h.registered id hlive).2).mpr hk) rfl rfl rfl rfl rfl
      rfl
  have hkeeps : Keeps s
      { s with requestMap := s.requestMap.insert id { request with needsLayer := true } } :=
    ⟨rfl, rfl, rfl⟩
  have hsent := hkeeps.trans (sendPrepared_keeps _ (s.getSession |d|) id)
  exact ⟨_, rfl, live, hmarked.sendPrepared hlive hfinal _, hid, hlink.keeps hsent, hsent.handling⟩

/-- The request was not taken care of, and its handler is to be given the error. -/
structure Rejected (live : Id → Option Handlers) (id : Id) (s s' : Requests) : Prop where
  inv : Inv live (some id) s'
  keeps : Keeps s s'
  requestsByDc : s'.requestsByDc = s.requestsByDc
  authExportRequests : s'.authExportRequests = s.authExportRequests
  authWaiters : s'.authWaiters = s.authWaiters

theorem Inv.rejected (h : Inv live (some id) s) : Rejected live id s s :=
  ⟨h, .refl s, rfl, rfl, rfl⟩

theorem insertBefore_perm {after : Id} {l : List (Id × Int)} (hid : id ∉ l.map Prod.fst)
    (hafter : after ∈ l.map Prod.fst) (hl : l.Pairwise fun p q => p.2 ≤ q.2) :
    ∃ (l' : List (Id × Int)) (p : Id × Int), p ∈ l ∧ insertBefore id after l = some l' ∧
      l'.Perm ((id, p.2) :: l) ∧ (l'.Pairwise fun p q => p.2 ≤ q.2) := by
  induction l with
  | nil => cases hafter
  | cons p l ih =>
    rw [List.map_cons, List.mem_cons, not_or] at hid
    rw [List.pairwise_cons] at hl
    rw [insertBefore, if_neg (Ne.symm hid.1)]
    by_cases hp : p.1 = after
    · rw [if_pos hp]
      refine ⟨_, p, List.mem_cons_self, rfl, List.Perm.refl _, ?_⟩
      refine List.pairwise_cons.mpr ⟨fun q hq => ?_, List.pairwise_cons.mpr hl⟩
      rcases List.mem_cons.mp hq with rfl | hq
      · exact le_refl _
      · exact hl.1 q hq
    · rw [if_neg hp]
      rw [List.map_cons, List.mem_cons] at hafter
      obtain ⟨l', r, hr, hins, hperm, hsorted⟩ :=
        ih hid.2 (hafter.resolve_left (Ne.symm hp)) hl.2
      refine ⟨p :: l', r, List.mem_cons_of_mem p hr, ?_,
        (hperm.cons p).trans (List.Perm.swap _ _ _), ?_⟩
      · rw [hins]
        rfl
      · refine List.pairwise_cons.mpr ⟨fun q hq => ?_, hsorted⟩
        rcases List.mem_cons.mp (hperm.mem_iff.mp hq) with rfl | hq
        · exact hl.1 r hr
        · exact hl.1 q hq

theorem Inv.waitWith (h : Inv live (some id) s) {callbacks : Handlers}
    (hid : live id = some callbacks) (hlink : Linked live id s) (hfinal : id ∉ s.finals) {d : Dc}
    (hd : s.requestsByDc[id]? = some d) {after : Id}
    (hstrands : ¬if (bareDcId |d|, after) ∈ s.authWaiters then s.JoinStrands (bareDcId |d|)
      else after ∉ s.delayedRequests.map Prod.fst) :
    Settled id callbacks s (s.waitWith id after (bareDcId |d|)) := by
  have hlive : live id ≠ none := by simp [hid]
  have hnot := h.not_held hlive
  rw [Requests.waitWith]
  by_cases hafter : (bareDcId |d|, after) ∈ s.authWaiters
  · rw [if_pos hafter] at hstrands ⊢
    have hnew : (bareDcId |d|, id) ∉ s.authWaiters := fun hmem =>
      hnot (mem_held.mpr (.inr (.inr ⟨_, hmem⟩)))
    have hserved : s.Outstanding (dropped live id) (bareDcId |d|) := by
      rw [← hlink.handlers]
      by_contra hnobody
      refine hstrands ⟨fun hempty => ?_, hnobody⟩
      have hmem := mem_waiters.mpr hafter
      rw [hempty] at hmem
      cases hmem
    simp only [hnew, if_false]
    have hjoined := h.join hlive hfinal hd hserved
    exact ⟨live, hjoined.frame rfl (fun _ hk => hk) rfl rfl rfl rfl rfl rfl, hid, hlink, rfl⟩
  · rw [if_neg hafter] at hstrands ⊢
    obtain ⟨l, p, -, hins, hperm, hsorted⟩ := insertBefore_perm
      (fun hmem => hnot (mem_held.mpr (.inr (.inl hmem)))) (not_not.mp hstrands) h.sorted
    have hplaced := h.delayed hlive hfinal hperm hsorted
    have hkeeps : Keeps s { s with delayedRequests := l } := ⟨rfl, rfl, rfl⟩
    have hresent := hkeeps.trans (resendDue_keeps _ l)
    simp only [hins]
    exact ⟨live, hplaced.checkDelayedRequests, hid, hlink.keeps hresent, hresent.handling⟩

theorem Inv.waitFailed (h : Inv live (some id) s) {callbacks : Handlers}
    (hid : live id = some callbacks) (hlink : Linked live id s) (hfinal : id ∉ s.finals)
    (hstrands : ¬s.DependStrands id) :
    ∃ s', (s.waitFailed id = (true, s') ∧ Settled id callbacks s s') ∨
      (s.waitFailed id = (false, s') ∧ Rejected live id s s') := by
  have hlive : live id ≠ none := by simp [hid]
  obtain ⟨hby, hmap⟩ := h.registered id hlive
  obtain ⟨d, hd⟩ := exists_dc hby
  obtain ⟨⟨after, needsLayer⟩, hrequest⟩ := Option.isSome_iff_exists.mp
    (Std.ExtTreeMap.mem_iff_isSome_getElem?.mp hmap)
  have hmarked : ∀ request : SecureRequest,
      Rejected live id s { s with requestMap := s.requestMap.insert id request } := by
    intro request
    refine ⟨h.frame rfl (fun k hk => (mem_insert_key hmap).mpr hk) rfl rfl rfl rfl rfl rfl, ?_, rfl,
      rfl, rfl⟩
    exact ⟨rfl, rfl, rfl⟩
  rw [Requests.waitFailed, hrequest]
  cases after with
  | none => exact ⟨s, .inr ⟨rfl, h.rejected⟩⟩
  | some after =>
    cases hafter : s.requestsByDc[after]? with
    | none =>
      simp only [hd, hafter]
      exact ⟨s, .inr ⟨rfl, h.rejected⟩⟩
    | some d' =>
      simp only [hd, hafter]
      by_cases hd0 : d = 0
      · by_cases hsame : d = d'
        · rw [if_pos hsame, if_pos hd0]
          exact ⟨s, .inr ⟨rfl, h.rejected⟩⟩
        · rw [if_neg hsame, if_pos hd0]
          exact ⟨_, .inr ⟨rfl, hmarked _⟩⟩
      · by_cases hsame : d = d'
        · rw [if_pos hsame, if_neg hd0]
          refine ⟨_, .inl ⟨rfl, h.waitWith hid hlink hfinal hd fun hif => ?_⟩⟩
          exact hstrands ⟨after, needsLayer, d, hrequest, hd, hsame ▸ hafter, hif⟩
        · rw [if_neg hsame, if_neg hd0]
          have hinv : Inv live (some id) { s with
              requestMap := (s.requestMap.insert id ⟨none, needsLayer⟩).insert id ⟨none, true⟩ } := by
            refine h.frame rfl (fun k hk => ?_) rfl rfl rfl rfl rfl rfl
            rw [mem_insert_key Std.ExtTreeMap.mem_insert_self]
            exact (mem_insert_key hmap).mpr hk
          have hkeeps : Keeps s { s with
              requestMap := (s.requestMap.insert id ⟨none, needsLayer⟩).insert id ⟨none, true⟩ } :=
            ⟨rfl, rfl, rfl⟩
          have hsent := hkeeps.trans (sendPrepared_keeps _ (s.getSession |d|) id)
          exact ⟨_, .inl ⟨rfl, live, hinv.sendPrepared hlive hfinal _, hid, hlink.keeps hsent,
            hsent.handling⟩⟩

theorem Inv.onOtherError (h : Inv live (some id) s) {callbacks : Handlers}
    (hid : live id = some callbacks) (hlink : Linked live id s) (hfinal : id ∉ s.finals)
    {error : RPCError} (hstrands : ¬s.OtherStrands id callbacks error) :
    ∃ s', (s.onOtherError id error = (true, s') ∧ Settled id callbacks s s') ∨
      (s.onOtherError id error = (false, s') ∧ Rejected live id s s' ∧
        ¬s.FailStrands id callbacks error) := by
  have hlive : live id ≠ none := by simp [hid]
  obtain ⟨d, hd⟩ := exists_dc (h.registered id hlive).1
  rw [OtherStrands] at hstrands
  rw [Requests.onOtherError]
  by_cases hdelays : delays error = true
  · rw [if_pos hdelays]
    obtain ⟨s', hs'⟩ := h.delay hid hlink hfinal error
    exact ⟨s', .inl hs'⟩
  · rw [if_neg hdelays] at hstrands ⊢
    by_cases hlacks : s.lacksAuth id error = true
    · simp only [hlacks, if_true, hd, Option.getD_some] at hstrands ⊢
      by_cases hgoes : bareDcId |d| = 0 ∨ bareDcId |d| = s.mainDcId ∨ s.hasAuthorization = false
      · rw [if_pos hgoes] at hstrands
        refine ⟨s, .inr ⟨?_, h.rejected, hstrands⟩⟩
        rw [Requests.waitForAuth, hd]
        exact if_pos hgoes
      · rw [if_neg hgoes] at hstrands
        obtain ⟨s', hs'⟩ := h.waitForAuth hid hlink hfinal hd (isBadGuestDc error) hgoes hstrands
        exact ⟨s', .inl hs'⟩
    · rw [if_neg hlacks] at hstrands ⊢
      have hleft : ¬s.FailStrands id callbacks error → ∃ s',
          (false, if isBadGuestDc error then
            { s with badGuestDcRequests := s.badGuestDcRequests.filter fun k => k ≠ id }
          else s) = (false, s') ∧ Rejected live id s s' ∧ ¬s.FailStrands id callbacks error := by
        intro hfails
        refine ⟨_, rfl, ?_, hfails⟩
        split
        · exact ⟨h.frame rfl (fun _ hk => hk) rfl rfl rfl rfl rfl rfl, ⟨rfl, rfl, rfl⟩, rfl, rfl, rfl⟩
        · exact h.rejected
      cases htype : error.type with
      | connectionNotInited =>
        simp only [htype, hd, Option.getD_some, not_and] at hstrands ⊢
        by_cases hd0 : d = 0
        · refine ⟨s, .inr ⟨?_, h.rejected, hstrands hd0⟩⟩
          obtain ⟨request, hrequest⟩ := Option.isSome_iff_exists.mp
            (Std.ExtTreeMap.mem_iff_isSome_getElem?.mp (h.registered id hlive).2)
          rw [Requests.initConnection, hrequest, hd]
          exact if_pos hd0
        · obtain ⟨s', hs'⟩ := h.initConnection hid hlink hfinal hd hd0
          exact ⟨s', .inl hs'⟩
      | msgWaitFailed =>
        simp only [htype, not_or] at hstrands ⊢
        obtain ⟨s', hs'⟩ := h.waitFailed hid hlink hfinal hstrands.1
        exact ⟨s', hs'.imp_right fun hs' => ⟨hs'.1, hs'.2, hstrands.2⟩⟩
      | migrate newdc =>
        simp only [htype] at hstrands ⊢
        exact (hleft hstrands).imp fun s' hs' => .inr hs'
      | floodWait secs =>
        simp only [htype] at hstrands ⊢
        exact (hleft hstrands).imp fun s' hs' => .inr hs'
      | floodOther =>
        simp only [htype] at hstrands ⊢
        exact (hleft hstrands).imp fun s' hs' => .inr hs'
      | fileIdInvalid =>
        simp only [htype] at hstrands ⊢
        exact (hleft hstrands).imp fun s' hs' => .inr hs'
      | other =>
        simp only [htype] at hstrands ⊢
        exact (hleft hstrands).imp fun s' hs' => .inr hs'

/-- When nobody is stranded, the request is taken care of, or nothing has happened to it and
its failure strands nobody. -/
theorem Inv.onErrorDefault (h : Inv live (some id) s) {callbacks : Handlers}
    (hid : live id = some callbacks) (hlink : Linked live id s) (hfinal : id ∉ s.finals)
    {error : RPCError} (hstrands : ¬s.DefaultStrands id callbacks error) :
    ∃ s', (s.onErrorDefault id error = (true, s') ∧ Settled id callbacks s s') ∨
      (s.onErrorDefault id error = (false, s') ∧ Rejected live id s s' ∧
        ¬s.FailStrands id callbacks error) := by
  have hlive : live id ≠ none := by simp [hid]
  obtain ⟨d, hd⟩ := exists_dc (h.registered id hlive).1
  by_cases hmigrate : ∃ newdc, error.type = .migrate newdc
  · obtain ⟨newdc, htype⟩ := hmigrate
    rw [DefaultStrands, htype] at hstrands
    simp only [hd, Option.getD_some] at hstrands
    rw [Requests.onErrorDefault, htype]
    by_cases hzero : d = 0 ∨ newdc = 0
    · rw [if_pos hzero] at hstrands
      refine ⟨s, .inr ⟨?_, h.rejected, hstrands⟩⟩
      simp only [Requests.migrate, hd]
      refine if_pos (.inr (hzero.imp_right fun hzero => ?_))
      rw [hzero]
      rfl
    · rw [if_neg hzero] at hstrands
      rw [not_or] at hzero
      obtain ⟨s', hs'⟩ := h.migrate hid hlink hfinal hd hzero.1 (Int.ofNat_ne_zero.mpr hzero.2) hstrands
      exact ⟨s', .inl hs'⟩
  · have hother : s.onErrorDefault id error = s.onOtherError id error := by
      rw [Requests.onErrorDefault]
      split
      · next newdc htype => exact absurd ⟨newdc, htype⟩ hmigrate
      · rfl
    have hstrands : ¬s.OtherStrands id callbacks error := by
      rw [DefaultStrands] at hstrands
      split at hstrands
      · next newdc htype => exact absurd ⟨newdc, htype⟩ hmigrate
      · exact hstrands
    rw [hother]
    exact h.onOtherError hid hlink hfinal hstrands

end TelegramClient.Mtproto.Requests
