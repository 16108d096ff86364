import Mathlib
import TelegramClient.Mtproto.RequestsPlaced

/-! The answers to requests, and runs in which no request is stranded. -/

namespace TelegramClient.Mtproto.Requests

variable {live : Id → Option Handlers} {air : Option Id} {s s' : Requests} {id : Id}

/-! ### Failures and results -/

theorem Inv.finish (h : Inv live (some id) s) (hfinal : id ∉ s.finals)
    (hlt : id < s.nextRequestId) : Inv live (some id) (s.finish id) := by
  refine ⟨h.registered, h.placed, h.waits, h.served, h.exports, h.unknown, h.next_pos, h.sorted,
    List.nodup_cons.mpr ⟨hfinal, h.once⟩, fun k hk => ?_⟩
  rcases List.mem_cons.mp hk with rfl | hk
  · exact ⟨hlt, fun _ => rfl⟩
  · exact h.final k hk

theorem Linked.outstanding (h : Linked live id s) {dcId : Dc} (hdeserted : ¬s.Deserted dcId)
    (hawaited : s.Awaited dcId) : s.Outstanding (dropped live id) dcId := by
  rw [← h.handlers]
  by_contra hnot
  exact hdeserted ⟨hawaited, hnot⟩

theorem mem_clearWaiters {dcId : Dc} {p : Dc × Id} :
    p ∈ (s.clearWaiters dcId).authWaiters ↔ p ∈ s.authWaiters ∧ p.1 ≠ dcId := by
  rw [clearWaiters, List.mem_filter, decide_eq_true_eq]

theorem Outstanding.clearWaiters {dcId dc : Dc} (h : s.Outstanding live dc) :
    (s.clearWaiters dcId).Outstanding live dc := by
  obtain ⟨e, d, hhelps, hbare, hnot⟩ := h
  exact ⟨e, d, hhelps, hbare, fun he => hnot (mem_clearWaiters.mp he).1⟩

theorem Inv.clearWaiters (h : Inv live air s) {dcId : Dc} (hgone : ¬s.Awaited dcId) :
    Inv live air (s.clearWaiters dcId) := by
  have hcount : ∀ k, live k ≠ none →
      ((s.clearWaiters dcId).authWaiters.map Prod.snd).count k =
        (s.authWaiters.map Prod.snd).count k := by
    intro k hk
    rw [Requests.clearWaiters, List.count_eq_countP, List.count_eq_countP, List.countP_map,
      List.countP_map, List.countP_filter]
    refine List.countP_congr fun p hp => ?_
    simp only [Function.comp_apply, Bool.and_eq_true, beq_iff_eq, decide_eq_true_eq,
      and_iff_left_iff_imp]
    rintro rfl rfl
    exact hgone ⟨p.2, hp, (h.registered p.2 hk).1⟩
  refine ⟨h.registered, fun k hk => ?_, fun dc k hk hby => ?_, fun dc k hk hby => ?_, h.exports,
    fun k hk => ?_, h.next_pos, h.sorted, h.once, h.final⟩
  · rw [← h.placed k hk, count_held, count_held, hcount k hk]
    rfl
  · exact h.waits dc k (mem_clearWaiters.mp hk).1 hby
  · exact (h.served dc k (mem_clearWaiters.mp hk).1 hby).clearWaiters
  · obtain ⟨hnone, hby, hexp, hnot⟩ := h.unknown k hk
    refine ⟨hnone, hby, hexp, fun hheld => hnot ?_⟩
    rw [mem_held] at hheld ⊢
    refine hheld.imp_right (Or.imp_right ?_)
    rintro ⟨dc, hk⟩
    exact ⟨dc, (mem_clearWaiters.mp hk).1⟩

/-- Between two steps, or while a handler is running. -/
structure Handles (live : Id → Option Handlers) (c : Handling) (s : Requests) : Prop where
  inv : Inv live (some c.id) s
  linked : Linked live c.id s
  user : c.handlers ≠ .exportAuth ∧ c.handlers ≠ .importAuth
  lt : c.id < s.nextRequestId
  own : live c.id = some c.handlers ∨ (live c.id = none ∧ c.id ∉ s.requestsByDc)
  asked : c.error ≠ none → c.id ∉ s.finals

def Ok (s : Requests) : Prop :=
  match s.handling with
  | none => Inv (fun k => s.parserMap[k]?) none s
  | some c => ∃ live, Handles live c s

theorem ok_of_none (hhandling : s.handling = none) (h : Inv (fun k => s.parserMap[k]?) none s) :
    Ok s := by
  rw [Ok, hhandling]
  exact h

theorem ok_of_some (c : Handling) (hhandling : s.handling = some c) (h : ∃ live, Handles live c s) :
    Ok s := by
  rw [Ok, hhandling]
  exact h

theorem Ok.leave (h : Inv live (some id) s) (hlink : Linked live id s)
    (hhandling : s.handling = none)
    (hserved : ∀ (dcId : Dc) (k : Id), (dcId, k) ∈ s.authWaiters → k ∈ s.requestsByDc → k ≠ id →
      s.Outstanding (dropped live id) dcId) : Ok (s.unregisterRequest id) := by
  have hhandlers : (fun k => (s.unregisterRequest id).parserMap[k]?) = dropped live id :=
    hlink.handlers
  refine ok_of_none hhandling ?_
  rw [hhandlers]
  exact (h.unregister hserved).landed dropped_self

theorem Ok.leave_user (h : Inv live (some id) s) (hlink : Linked live id s)
    (hhandling : s.handling = none) (hexport : live id ≠ some .exportAuth)
    (himport : live id ≠ some .importAuth) : Ok (s.unregisterRequest id) :=
  Ok.leave h hlink hhandling fun dcId k hk hby _ => (h.served dcId k hk hby).dropped hexport himport

theorem Ok.failed (h : Inv live (some id) s) {callbacks : Handlers}
    (hid : live id = some callbacks) (hlink : Linked live id s) (hhandling : s.handling = none)
    (hfinal : id ∉ s.finals) {error : RPCError} (hstrands : ¬s.FailStrands id callbacks error) :
    Ok (s.failed id callbacks error) := by
  have hlive : live id ≠ none := by simp [hid]
  have hlt := h.lt hlive
  have hfinished := h.finish hfinal hlt
  rw [FailStrands, not_or] at hstrands
  cases callbacks with
  | user onDone onFail =>
    cases onFail with
    | false => exact Ok.leave_user h hlink hhandling (by simp [hid]) (by simp [hid])
    | true =>
      refine ok_of_some ⟨id, .user onDone true, none⟩ rfl ⟨live, ?_⟩
      exact ⟨hfinished.frame rfl (fun _ hk => hk) rfl rfl rfl rfl rfl rfl, hlink, by simp, hlt,
        .inl hid, fun herror => absurd rfl herror⟩
  | exportAuth =>
    obtain ⟨d, hd, -⟩ := h.exports id hid
    have hserved : ∀ (dcId : Dc) (k : Id), (dcId, k) ∈ s.authWaiters → k ∈ s.requestsByDc →
        dcId ≠ bareDcId d → s.Outstanding (dropped live id) dcId := by
      intro dcId k hk hby hdc
      obtain ⟨e, d', hhelps, hbare, hnot⟩ := h.served dcId k hk hby
      have hne : e ≠ id := by
        rintro rfl
        rcases hhelps with ⟨-, hd'⟩ | ⟨himport, -⟩
        · rw [hd] at hd'
          cases hd'
          exact hdc hbare.symm
        · rw [hid] at himport
          cases himport
      exact ⟨e, d', by rwa [dropped_of_ne hne], hbare, hnot⟩
    have hfinishedLink : Linked live id (s.finish id) := hlink
    by_cases hdefault : error.isDefaultHandledError = true
    · have hfail : (s.finish id).exportFail error id = s.finish id := if_pos hdefault
      rw [Requests.failed, hfail]
      refine Ok.leave hfinished hfinishedLink hhandling fun dcId k hk hby _ => ?_
      by_cases hdc : dcId = bareDcId d
      · have hawaited : s.Awaited (bareDcId d) := ⟨k, hdc ▸ hk, hby⟩
        rw [hdc]
        refine hlink.outstanding (fun hdeserted => hstrands.1 ?_) hawaited
        exact ⟨rfl, d, hd, hawaited, fun _ => hdeserted⟩
      · exact hserved dcId k hk hby hdc
    · have hfail : (s.finish id).exportFail error id = (s.finish id).clearWaiters (bareDcId d) := by
        have hd' : (s.finish id).authExportRequests[id]? = some d := hd
        rw [exportFail, if_neg hdefault, hd']
      rw [Requests.failed, hfail]
      have hgone : ¬s.Awaited (bareDcId d) := fun hawaited =>
        hstrands.1 ⟨rfl, d, hd, hawaited, fun hdef => absurd hdef hdefault⟩
      refine Ok.leave (hfinished.clearWaiters hgone) hfinishedLink hhandling
        fun dcId k hk hby _ => ?_
      obtain ⟨hk, hdc⟩ := mem_clearWaiters.mp hk
      exact (hserved dcId k hk hby hdc).clearWaiters
  | importAuth =>
    obtain ⟨d, hd⟩ := exists_dc (h.registered id hlive).1
    refine Ok.leave hfinished hlink hhandling fun dcId k hk hby _ => ?_
    obtain ⟨e, d', hhelps, hbare, hnot⟩ := h.served dcId k hk hby
    by_cases hne : e = id
    · subst hne
      rcases hhelps with ⟨hexport, -⟩ | ⟨-, hd'⟩
      · rw [hid] at hexport
        cases hexport
      · rw [hd] at hd'
        cases hd'
        have hawaited : s.Awaited (bareDcId d) := ⟨k, hbare ▸ hk, hby⟩
        rw [← hbare]
        exact hlink.outstanding (fun hdeserted => hstrands.2 ⟨rfl, d, hd, hdeserted⟩) hawaited
    · exact ⟨e, d', by rwa [dropped_of_ne hne], hbare, hnot⟩

theorem Ok.settled {callbacks : Handlers} (h : Settled id callbacks s s')
    (hhandling : s.handling = none) :
    Ok { s' with parserMap := s'.parserMap.insertIfNew id callbacks } := by
  obtain ⟨live, hinv, hid, hlink, hkept⟩ := h
  have hget : s'.parserMap[id]? = none := by rw [hlink id, dropped_self]
  have hnot : id ∉ s'.parserMap := by
    rw [Std.ExtTreeMap.mem_iff_isSome_getElem?, hget]
    exact Bool.false_ne_true
  have hhandlers : (fun k => (s'.parserMap.insertIfNew id callbacks)[k]?) = live := by
    funext k
    by_cases hk : k = id
    · rw [hk, getElem?_insertIfNew_new hnot, hid]
    · rw [getElem?_insertIfNew_key hk, hlink k, dropped_of_ne hk]
  refine ok_of_none (hkept.trans hhandling) ?_
  change Inv (fun k => (s'.parserMap.insertIfNew id callbacks)[k]?) none _
  rw [hhandlers]
  exact hinv.frame rfl (fun _ hk => hk) rfl rfl rfl rfl rfl rfl

theorem Ok.defaultError (h : Inv live (some id) s) {callbacks : Handlers}
    (hid : live id = some callbacks) (hlink : Linked live id s) (hhandling : s.handling = none)
    (hfinal : id ∉ s.finals) {error : RPCError}
    (hstrands : ¬s.DefaultStrands id callbacks error) : Ok (s.defaultError id callbacks error) := by
  rw [Requests.defaultError]
  obtain ⟨s', ⟨heq, hsettled⟩ | ⟨heq, hrejected, hfails⟩⟩ :=
    h.onErrorDefault hid hlink hfinal hstrands
  · rw [heq]
    exact Ok.settled hsettled hhandling
  · rw [heq]
    obtain ⟨hinv, hkeeps, hby, hexports, hwaiters⟩ := hrejected
    refine Ok.failed hinv hid (hlink.keeps hkeeps) (hkeeps.handling.trans hhandling)
      (hkeeps.finals ▸ hfinal) ?_
    rw [FailStrands] at hfails ⊢
    simp only [Awaited, Deserted, Outstanding, hby, hexports, hwaiters, hkeeps.parserMap]
      at hfails ⊢
    exact hfails

theorem Ok.handleError (h : Inv live (some id) s) {callbacks : Handlers}
    (hid : live id = some callbacks) (hlink : Linked live id s) (hhandling : s.handling = none)
    (hfinal : id ∉ s.finals) {error : RPCError}
    (hstrands : asksHandler callbacks error = false → ¬s.DefaultStrands id callbacks error) :
    Ok (s.handleError id callbacks error) := by
  rw [Requests.handleError]
  by_cases hasks : asksHandler callbacks error = true
  · rw [if_pos hasks]
    refine ok_of_some ⟨id, callbacks, some error⟩ rfl ⟨live, ?_⟩
    refine ⟨h.frame rfl (fun _ hk => hk) rfl rfl rfl rfl rfl rfl, hlink, ?_,
      h.lt (by simp [hid]), .inl hid, fun _ => hfinal⟩
    cases callbacks with
    | user onDone onFail => simp
    | exportAuth => simp [asksHandler] at hasks
    | importAuth => simp [asksHandler] at hasks
  · rw [if_neg hasks]
    exact Ok.defaultError h hid hlink hhandling hfinal (hstrands (by simpa using hasks))

theorem Ok.exportDone (h : Inv live (some id) s) (hid : live id = some .exportAuth)
    (hlink : Linked live id s) (hhandling : s.handling = none) :
    Ok ((s.exportDone id).unregisterRequest id) := by
  have hlive : live id ≠ none := by simp [hid]
  obtain ⟨d, hd, hbare⟩ := h.exports id hid
  have hnew := h.unknown s.nextRequestId (.inl (Nat.le_refl _))
  have hne : s.nextRequestId ≠ id := Nat.ne_of_gt (h.lt hlive)
  have hd0 : d ≠ 0 := by
    rintro rfl
    exact hbare rfl
  have hsession : s.getSession d = d := by rw [getSession, if_neg hd0, if_neg hbare]
  obtain ⟨hexports, hkept, hfinals, hparser⟩ := sendRequest_exports .importAuth d 0 hnew.2.2.2
  have hsent : Inv (added live s.nextRequestId .importAuth) (some id)
      (s.sendRequest .importAuth d 0) := by
    have hsent := h.send (fun heq => hne (Option.some.inj heq).symm) .importAuth d 0
      s.authExportRequests (fun _ _ _ => rfl) (by simp) (fun _ hk => .inl hk)
    rw [← hexports] at hsent
    exact hsent
  have hlinked := hlink.added hnew.1 hne .importAuth hparser
  have hby : (s.sendRequest .importAuth d 0).requestsByDc =
      s.requestsByDc.insert s.nextRequestId d := by
    rw [sendRequest_eq s .importAuth d 0 hnew.2.2.2, hsession, if_neg hd0]
  have hwaiters : (s.sendRequest .importAuth d 0).authWaiters = s.authWaiters := by
    rw [sendRequest_eq s .importAuth d 0 hnew.2.2.2]
  have himport : added live s.nextRequestId .importAuth s.nextRequestId = some .importAuth := by
    rw [added, if_neg (by simp), Function.update_self]
  have hserved : ∀ (dcId : Dc) (k : Id), (dcId, k) ∈ (s.sendRequest .importAuth d 0).authWaiters →
      k ∈ (s.sendRequest .importAuth d 0).requestsByDc → k ≠ id →
      (s.sendRequest .importAuth d 0).Outstanding
        (dropped (added live s.nextRequestId .importAuth) id) dcId := by
    intro dcId k hk hregistered _
    by_cases hdc : bareDcId d = dcId
    · refine ⟨s.nextRequestId, d, .inr ⟨?_, ?_⟩, hdc, fun hmem => ?_⟩
      · rw [dropped_of_ne hne, himport]
      · rw [hby, Std.ExtTreeMap.getElem?_insert_self]
      · rw [hwaiters] at hmem
        exact hnew.2.2.2 (mem_held.mpr (.inr (.inr ⟨dcId, hmem⟩)))
    · obtain ⟨e, d', hhelps, hbare', hnot⟩ := hsent.served dcId k hk hregistered
      have hene : e ≠ id := by
        rintro rfl
        rw [added_of_lt (h.lt hlive), hid, hexports, hd] at hhelps
        rcases hhelps with ⟨-, hd'⟩ | ⟨himp, -⟩
        · cases hd'
          exact hdc hbare'
        · cases himp
      exact ⟨e, d', by rwa [dropped_of_ne hene], hbare', hnot⟩
  have hleft := (hsent.unregister hserved).landed dropped_self
  have hhandlers : (fun k => (s.sendRequest .importAuth d 0).parserMap[k]?) =
      dropped (added live s.nextRequestId .importAuth) id := hlinked.handlers
  have hdone : s.exportDone id = { s.sendRequest .importAuth d 0 with
      authExportRequests := (s.sendRequest .importAuth d 0).authExportRequests.erase id } := by
    rw [Requests.exportDone, hd]
  rw [hdone]
  refine ok_of_none (hkept.trans hhandling) ?_
  change Inv (fun k => (s.sendRequest .importAuth d 0).parserMap[k]?) none _
  rw [hhandlers]
  refine ⟨hleft.registered, hleft.placed, hleft.waits, fun dcId k hk hregistered => ?_,
    fun k hk => ?_, fun k hk => ?_, hleft.next_pos, hleft.sorted, hleft.once, hleft.final⟩
  · obtain ⟨e, d', hhelps, hbare', hnot⟩ := hleft.served dcId k hk hregistered
    have hene : e ≠ id := by
      rintro rfl
      simp at hhelps
    exact ⟨e, d', hhelps.imp_left fun he => ⟨he.1, (getElem?_erase_key hene).trans he.2⟩, hbare',
      hnot⟩
  · obtain ⟨d', hd', hbare'⟩ := hleft.exports k hk
    have hkne : k ≠ id := by
      rintro rfl
      rw [dropped_self] at hk
      cases hk
    exact ⟨d', (getElem?_erase_key hkne).trans hd', hbare'⟩
  · obtain ⟨hnone, hby', hexp, hnot⟩ := hleft.unknown k hk
    exact ⟨hnone, hby', fun hmem => hexp (mem_erase_key.mp hmem).2, hnot⟩

/-! ### The import is done -/

theorem changedDc_nonneg {d newdc : Dc} (hd : 0 ≤ d) (hnew : 0 ≤ newdc) : 0 ≤ changedDc d newdc := by
  rw [changedDc, if_neg (not_lt.mpr hd), shiftDcId, getDcIdShift]
  have hshift : 0 ≤ d.tdiv kDcShift := Int.tdiv_nonneg hd (by decide)
  exact Int.add_nonneg hnew (Int.mul_nonneg (by decide) hshift)

theorem resendWaiter_eq {newdc d : Dc} (hd : s.requestsByDc[id]? = some d) (hmap : id ∈ s.requestMap)
    (hnonneg : 0 ≤ d) (hnew : 0 ≤ newdc) (hnot : (s.getSession (changedDc d newdc), id) ∉ s.sent) :
    s.resendWaiter newdc id = { s with
      requestsByDc := s.requestsByDc.insert id (changedDc d newdc)
      sent := (s.getSession (changedDc d newdc), id) :: s.sent } := by
  simp only [resendWaiter, hd, if_pos hmap, if_neg (not_lt.mpr (changedDc_nonneg hnonneg hnew))]
  exact if_neg hnot

theorem Inv.resendWaiter {newdc : Dc} {k : Id} {rest : List (Dc × Id)} {session : Dc}
    (h : Inv live air { s with authWaiters := (newdc, k) :: rest }) (hk : live k ≠ none)
    (hair : air ≠ some k) {d d' : Dc} (hd : s.requestsByDc[k]? = some d) (hnonneg : 0 ≤ d)
    (himport : live id = some .importAuth) (hby : s.requestsByDc[id]? = some d')
    (hbare : bareDcId d' = newdc) (hne : k ≠ id) (hid : (newdc, id) ∉ rest) (changed : Dc) :
    Inv live air { s with
      authWaiters := rest
      requestsByDc := s.requestsByDc.insert k changed
      sent := (session, k) :: s.sent } := by
  have hreg := (h.registered k hk).1
  have hmem : ∀ n, n ∈ s.requestsByDc.insert k changed ↔ n ∈ s.requestsByDc := fun n =>
    mem_insert_key hreg
  have hperm : ({ s with
      authWaiters := rest
      requestsByDc := s.requestsByDc.insert k changed
      sent := (session, k) :: s.sent } : Requests).held.Perm
      ({ s with authWaiters := (newdc, k) :: rest } : Requests).held := by
    rw [held, held]
    change (k :: s.sent.map Prod.snd ++ s.delayedRequests.map Prod.fst ++ rest.map Prod.snd).Perm
      (s.sent.map Prod.snd ++ s.delayedRequests.map Prod.fst ++ k :: rest.map Prod.snd)
    rw [List.cons_append, List.cons_append]
    exact List.perm_middle.symm
  have hgone : ∀ dcId, (dcId, k) ∉ rest := by
    intro dcId hmem
    have hcount := h.placed k hk
    rw [if_neg hair, count_held] at hcount
    change _ + _ + (k :: rest.map Prod.snd).count k = 1 at hcount
    rw [List.count_cons_self] at hcount
    have hpos : 0 < (rest.map Prod.snd).count k :=
      List.count_pos_iff.mpr (List.mem_map.mpr ⟨_, hmem, rfl⟩)
    omega
  refine ⟨fun n hn => ⟨(hmem n).mpr (h.registered n hn).1, (h.registered n hn).2⟩, fun n hn => ?_,
    fun dcId n hn hby => ?_, fun dcId n hn hby => ?_, h.exports, fun n hn => ?_, h.next_pos, h.sorted,
    h.once, h.final⟩
  · rw [hperm.count_eq]
    exact h.placed n hn
  · have hnk : n ≠ k := by
      rintro rfl
      exact hgone dcId hn
    obtain ⟨hlive, e, he, hbare'⟩ := h.waits dcId n (List.mem_cons_of_mem _ hn) ((hmem n).mp hby)
    exact ⟨hlive, e, (getElem?_insert_key hnk).trans he, hbare'⟩
  · by_cases hdc : dcId = newdc
    · exact ⟨id, d', .inr ⟨himport, (getElem?_insert_key (Ne.symm hne)).trans ‹_›⟩, hdc ▸ hbare,
        hdc ▸ hid⟩
    · obtain ⟨e, d'', hhelps, hbare', hnot⟩ :=
        h.served dcId n (List.mem_cons_of_mem _ hn) ((hmem n).mp hby)
      have hnot' : (dcId, e) ∉ rest := fun hmem => hnot (List.mem_cons_of_mem _ hmem)
      rcases hhelps with hexport | ⟨himp, hd''⟩
      · exact ⟨e, d'', .inl hexport, hbare', hnot'⟩
      · have hek : e ≠ k := by
          rintro rfl
          obtain ⟨-, d₀, hd₀, hbare₀⟩ := h.waits newdc e List.mem_cons_self hreg
          have hsame : d₀ = d := Option.some.inj (hd₀.symm.trans hd)
          have hsame' : d'' = d := Option.some.inj (hd''.symm.trans hd)
          rw [hsame, abs_of_nonneg hnonneg] at hbare₀
          rw [hsame'] at hbare'
          exact hdc (hbare'.symm.trans hbare₀)
        exact ⟨e, d'', .inr ⟨himp, (getElem?_insert_key hek).trans hd''⟩, hbare', hnot'⟩
  · obtain ⟨hnone, hby, hexp, hnot⟩ := h.unknown n hn
    exact ⟨hnone, fun hn => hby ((hmem n).mp hn), hexp, fun hheld => hnot (hperm.mem_iff.mp hheld)⟩

theorem Inv.perm_waiters {waiters : List (Dc × Id)} (h : Inv live air s)
    (hperm : waiters.Perm s.authWaiters) : Inv live air { s with authWaiters := waiters } := by
  have hheld : ({ s with authWaiters := waiters } : Requests).held.Perm s.held := by
    rw [held, held]
    exact (hperm.map Prod.snd).append_left _
  refine ⟨h.registered, fun k hk => ?_, fun dcId k hk => h.waits dcId k (hperm.mem_iff.mp hk),
    fun dcId k hk hby => ?_, h.exports, fun k hk => ?_, h.next_pos, h.sorted, h.once, h.final⟩
  · rw [hheld.count_eq]
    exact h.placed k hk
  · obtain ⟨e, d, hhelps, hbare, hnot⟩ := h.served dcId k (hperm.mem_iff.mp hk) hby
    exact ⟨e, d, hhelps, hbare, fun he => hnot (hperm.mem_iff.mp he)⟩
  · obtain ⟨hnone, hby, hexp, hnot⟩ := h.unknown k hk
    exact ⟨hnone, hby, hexp, fun hmem => hnot (hheld.mem_iff.mp hmem)⟩

theorem Inv.forget {newdc : Dc} {k : Id} {rest : List (Dc × Id)}
    (h : Inv live air { s with authWaiters := (newdc, k) :: rest }) (hk : k ∉ s.requestsByDc) :
    Inv live air { s with authWaiters := rest } := by
  refine ⟨h.registered, fun n hn => ?_,
    fun dcId n hn => h.waits dcId n (List.mem_cons_of_mem _ hn), fun dcId n hn hby => ?_, h.exports,
    fun n hn => ?_, h.next_pos, h.sorted, h.once, h.final⟩
  · have hkn : k ≠ n := by
      rintro rfl
      exact hk (h.registered k hn).1
    have hplaced := h.placed n hn
    rw [count_held] at hplaced ⊢
    rw [← hplaced, List.map_cons, List.count_cons_of_ne hkn]
  · obtain ⟨e, d, hhelps, hbare, hnot⟩ := h.served dcId n (List.mem_cons_of_mem _ hn) hby
    exact ⟨e, d, hhelps, hbare, fun he => hnot (List.mem_cons_of_mem _ he)⟩
  · obtain ⟨hnone, hby, hexp, hnot⟩ := h.unknown n hn
    refine ⟨hnone, hby, hexp, fun hmem => hnot ?_⟩
    rw [mem_held] at hmem ⊢
    refine hmem.imp_right (Or.imp_right ?_)
    rintro ⟨dcId, hn⟩
    exact ⟨dcId, List.mem_cons_of_mem _ hn⟩

theorem Inv.resendWaiters {newdc d' : Dc} {others : List (Dc × Id)}
    (himport : live id = some .importAuth) (hbare : bareDcId d' = newdc)
    (hothers : (newdc, id) ∉ others) (l : List Id) (hid : id ∉ l)
    (h : Inv live (some id) { s with authWaiters := l.map (Prod.mk newdc) ++ others })
    (hby : s.requestsByDc[id]? = some d')
    (hnonneg : ∀ k ∈ l, ∀ d, s.requestsByDc[k]? = some d → 0 ≤ d) :
    ∃ s', l.foldl (fun s k => s.resendWaiter newdc k) s = s' ∧
      Inv live (some id) { s' with authWaiters := others } ∧ Keeps s s' ∧
      s'.authWaiters = s.authWaiters ∧ s'.requestsByDc[id]? = some d' := by
  induction l generalizing s with
  | nil => exact ⟨s, rfl, h, .refl s, rfl, hby⟩
  | cons k l ih =>
    rw [List.mem_cons, not_or] at hid
    rw [List.map_cons, List.cons_append] at h
    have hrest : ∀ s₁ : Requests, s.resendWaiter newdc k = s₁ →
        Inv live (some id) { s₁ with authWaiters := l.map (Prod.mk newdc) ++ others } →
        Keeps s s₁ → s₁.authWaiters = s.authWaiters → s₁.requestsByDc[id]? = some d' →
        (∀ n ∈ l, ∀ d, s₁.requestsByDc[n]? = some d → 0 ≤ d) →
        ∃ s', (k :: l).foldl (fun s k => s.resendWaiter newdc k) s = s' ∧
          Inv live (some id) { s' with authWaiters := others } ∧ Keeps s s' ∧
          s'.authWaiters = s.authWaiters ∧ s'.requestsByDc[id]? = some d' := by
      intro s₁ heq hinv hkeeps hwaiters hby₁ hnonneg₁
      obtain ⟨s', hfold, hinv', hkeeps', hwaiters', hby'⟩ := ih hid.2 hinv hby₁ hnonneg₁
      refine ⟨s', ?_, hinv', hkeeps.trans hkeeps', hwaiters'.trans hwaiters, hby'⟩
      rw [List.foldl_cons, heq]
      exact hfold
    cases hd : s.requestsByDc[k]? with
    | none =>
      have hnot : k ∉ s.requestsByDc := by
        rw [Std.ExtTreeMap.mem_iff_isSome_getElem?, hd]
        exact Bool.false_ne_true
      refine hrest s ?_ (h.forget hnot) (.refl s) rfl hby fun n hn =>
        hnonneg n (List.mem_cons_of_mem k hn)
      rw [Requests.resendWaiter, hd]
    | some d =>
      have hreg : k ∈ s.requestsByDc := by
        rw [Std.ExtTreeMap.mem_iff_isSome_getElem?, hd]
        rfl
      obtain ⟨hk, d₀, hd₀, hbare₀⟩ := h.waits newdc k List.mem_cons_self hreg
      have hd0 : 0 ≤ d := hnonneg k List.mem_cons_self d hd
      have hnew : 0 ≤ newdc := by
        rw [← hbare₀]
        exact Int.tmod_nonneg _ (abs_nonneg d₀)
      have hair : some id ≠ some k := fun heq => hid.1 (Option.some.inj heq)
      have hcount := h.placed k hk
      rw [if_neg hair, count_held] at hcount
      change _ + _ + (k :: (l.map (Prod.mk newdc) ++ others).map Prod.snd).count k = 1 at hcount
      rw [List.count_cons_self] at hcount
      have hnot : (s.getSession (changedDc d newdc), k) ∉ s.sent := by
        intro hmem
        have hpos : 0 < (s.sent.map Prod.snd).count k :=
          List.count_pos_iff.mpr (List.mem_map.mpr ⟨_, hmem, rfl⟩)
        change (s.sent.map Prod.snd).count k + _ + _ = 1 at hcount
        omega
      have hothersNot : (newdc, id) ∉ l.map (Prod.mk newdc) ++ others := by
        rw [List.mem_append, not_or]
        refine ⟨fun hmem => ?_, hothers⟩
        obtain ⟨n, hn, heq⟩ := List.mem_map.mp hmem
        exact hid.2 ((Prod.mk.inj heq).2 ▸ hn)
      have hne : k ≠ id := fun heq => hid.1 heq.symm
      refine hrest _ (resendWaiter_eq hd (h.registered k hk).2 hd0 hnew hnot)
        (h.resendWaiter hk hair hd hd0 himport hby hbare hne hothersNot _) ⟨rfl, rfl, rfl⟩ rfl
        ((getElem?_insert_key (Ne.symm hne)).trans hby) fun n hn d₁ hd₁ => ?_
      by_cases hnk : n = k
      · rw [hnk] at hd₁
        have heq : (s.requestsByDc.insert k (changedDc d newdc))[k]? = some (changedDc d newdc) :=
          Std.ExtTreeMap.getElem?_insert_self
        rw [Option.some.inj (hd₁.symm.trans heq)]
        exact changedDc_nonneg hd0 hnew
      · exact hnonneg n (List.mem_cons_of_mem k hn) d₁ ((getElem?_insert_key hnk).symm.trans hd₁)

theorem waiters_perm (s : Requests) (newdc : Dc) :
    ((s.waiters newdc).map (Prod.mk newdc) ++ (s.clearWaiters newdc).authWaiters).Perm
      s.authWaiters := by
  have hfirst : (s.waiters newdc).map (Prod.mk newdc) = s.authWaiters.filter fun p => p.1 = newdc := by
    rw [waiters, List.map_map]
    refine (List.map_congr_left fun p hp => ?_).trans (List.map_id _)
    rw [List.mem_filter, decide_eq_true_eq] at hp
    rw [Function.comp_apply, ← hp.2]
    rfl
  have hperm := List.filter_append_perm (fun p : Dc × Id => decide (p.1 = newdc)) s.authWaiters
  rw [hfirst]
  refine List.Perm.trans (List.Perm.of_eq ?_) hperm
  congr 1
  refine List.filter_congr fun p _ => ?_
  by_cases hp : p.1 = newdc
  · simp [hp]
  · simp [hp]

theorem Ok.importDone (h : Inv live (some id) s) (hid : live id = some .importAuth)
    (hlink : Linked live id s) (hhandling : s.handling = none) (hstrands : ¬s.ImportStrands id) :
    Ok ((s.importDone id).unregisterRequest id) := by
  have hlive : live id ≠ none := by simp [hid]
  obtain ⟨d, hd⟩ := exists_dc (h.registered id hlive).1
  have hnot : ∀ dcId, (dcId, id) ∉ s.authWaiters := fun dcId hmem =>
    h.not_held hlive (mem_held.mpr (.inr (.inr ⟨dcId, hmem⟩)))
  have hnonneg : ∀ k ∈ s.waiters (bareDcId d), ∀ d', s.requestsByDc[k]? = some d' → 0 ≤ d' := by
    intro k hk d' hd'
    by_contra hneg
    exact hstrands ⟨d, hd, k, hk, d', hd', not_le.mp hneg⟩
  obtain ⟨s', hfold, hinv, hkeeps, hwaiters, hby⟩ := Inv.resendWaiters hid rfl
    (fun hmem => hnot _ (mem_clearWaiters.mp hmem).1) (s.waiters (bareDcId d))
    (fun hmem => hnot _ (mem_waiters.mp hmem)) (h.perm_waiters (waiters_perm s (bareDcId d))) hd
    hnonneg
  have hdone : s.importDone id =
      { s' with authWaiters := (s.clearWaiters (bareDcId d)).authWaiters } := by
    simp only [Requests.importDone, hd, hfold, clearWaiters, hwaiters]
  rw [hdone]
  refine Ok.leave hinv (hlink.keeps ⟨hkeeps.parserMap, hkeeps.handling, hkeeps.finals⟩)
    (hkeeps.handling.trans hhandling) fun dcId k hk hreg _ => ?_
  obtain ⟨e, d', hhelps, hbare, hnot'⟩ := hinv.served dcId k hk hreg
  have hne : e ≠ id := by
    rintro rfl
    rcases hhelps with ⟨hexport, -⟩ | ⟨-, hd'⟩
    · rw [hid] at hexport
      cases hexport
    · have heq : d' = d := Option.some.inj (hd'.symm.trans hby)
      rw [heq] at hbare
      exact (mem_clearWaiters.mp hk).2 hbare.symm
  exact ⟨e, d', by rwa [dropped_of_ne hne], hbare, hnot'⟩

/-! ### The steps -/

theorem Inv.taken (h : Inv live none s) {session : Dc} (hsent : (session, id) ∈ s.sent) :
    Inv live (some id) (s.taken session id) := by
  have hperm : s.held.Perm (id :: (s.taken session id).held) := by
    have hperm := (List.perm_cons_erase hsent).map Prod.snd
    rw [held, held]
    exact (hperm.append_right _).append_right _
  refine ⟨h.registered, fun k hk => ?_, h.waits, h.served, h.exports, fun k hk => ?_, h.next_pos,
    h.sorted, h.once, fun k hk => ⟨(h.final k hk).1, fun hlive => ?_⟩⟩
  · have hplaced := h.placed k hk
    rw [hperm.count_eq, List.count_cons] at hplaced
    by_cases hkid : k = id
    · rw [hkid] at hplaced ⊢
      simpa using hplaced
    · simpa [Ne.symm hkid] using hplaced
  · obtain ⟨hnone, hby, hexp, hnot⟩ := h.unknown k hk
    exact ⟨hnone, hby, hexp, fun hmem => hnot (hperm.mem_iff.mpr (List.mem_cons_of_mem id hmem))⟩
  · cases (h.final k hk).2 hlive

theorem linked_erase {parserMap : Std.ExtTreeMap Id Handlers} (hlive : ∀ k, parserMap[k]? = live k)
    (hmap : s.parserMap = parserMap.erase id) : Linked live id s := by
  intro k
  rw [hmap]
  by_cases hk : k = id
  · rw [hk, dropped_self, Std.ExtTreeMap.getElem?_erase_self]
  · rw [getElem?_erase_key hk, dropped_of_ne hk, hlive k]

theorem Ok.succeeded (h : Inv live (some id) s) {callbacks : Handlers}
    (hid : live id = some callbacks) (hlink : Linked live id s) (hhandling : s.handling = none)
    (hfinal : id ∉ s.finals) (hstrands : callbacks = .importAuth → ¬s.ImportStrands id) :
    Ok (s.succeeded id callbacks) := by
  have hlive : live id ≠ none := by simp [hid]
  have hfinished := h.finish hfinal (h.lt hlive)
  cases callbacks with
  | user onDone onFail =>
    cases onDone with
    | false => exact Ok.leave_user h hlink hhandling (by simp [hid]) (by simp [hid])
    | true =>
      refine ok_of_some ⟨id, .user true onFail, none⟩ rfl ⟨live, ?_⟩
      exact ⟨hfinished.frame rfl (fun _ hk => hk) rfl rfl rfl rfl rfl rfl, hlink, by simp,
        h.lt hlive, .inl hid, fun herror => absurd rfl herror⟩
  | exportAuth => exact Ok.exportDone hfinished hid hlink hhandling
  | importAuth => exact Ok.importDone hfinished hid hlink hhandling (hstrands rfl)

/-- The default handling has nothing to do with a request that is gone. -/
theorem onErrorDefault_gone (hgone : id ∉ s.requestsByDc) {callbacks : Handlers} {error : RPCError}
    (hstrands : ¬s.DefaultStrands id callbacks error) :
    ∃ badGuestDcRequests,
      s.onErrorDefault id error = (false, { s with badGuestDcRequests := badGuestDcRequests }) := by
  have hnone : s.requestsByDc[id]? = none := by
    rw [Std.ExtTreeMap.mem_iff_isSome_getElem?] at hgone
    exact Option.not_isSome_iff_eq_none.mp hgone
  have hother : ¬s.OtherStrands id callbacks error → ∃ badGuestDcRequests,
      s.onOtherError id error = (false, { s with badGuestDcRequests := badGuestDcRequests }) := by
    intro hstrands
    rw [OtherStrands] at hstrands
    rw [onOtherError]
    by_cases hdelays : delays error = true
    · rw [if_pos hdelays] at hstrands
      exact absurd hgone hstrands
    · rw [if_neg hdelays]
      by_cases hlacks : s.lacksAuth id error = true
      · rw [if_pos hlacks]
        refine ⟨s.badGuestDcRequests, ?_⟩
        rw [waitForAuth, hnone]
        exact if_pos (.inl rfl)
      · rw [if_neg hlacks]
        split
        · refine ⟨s.badGuestDcRequests, ?_⟩
          rw [initConnection, hnone]
          cases s.requestMap[id]? with
          | none => rfl
          | some request => rfl
        · refine ⟨s.badGuestDcRequests, ?_⟩
          rw [waitFailed]
          split
          · rw [hnone]
          · rfl
        · split
          · exact ⟨_, rfl⟩
          · exact ⟨s.badGuestDcRequests, rfl⟩
  rw [DefaultStrands] at hstrands
  rw [onErrorDefault]
  split
  · refine ⟨s.badGuestDcRequests, ?_⟩
    rw [migrate, hnone]
  · next hnot =>
    split at hstrands
    · next newdc htype => exact absurd htype (hnot newdc)
    · exact hother hstrands

theorem Ok.returned {c : Handling} (h : Handles live c s)
    {handled : Bool} (hstrands : ∀ error, handled = false → c.error = some error →
      ¬s.DefaultStrands c.id c.handlers error) : Ok (s.returned c handled) := by
  have hinv : Inv live (some c.id) { s with handling := none } :=
    h.inv.frame rfl (fun _ hk => hk) rfl rfl rfl rfl rfl rfl
  have huser : live c.id ≠ some .exportAuth ∧ live c.id ≠ some .importAuth := by
    rcases h.own with hown | ⟨hown, -⟩
    · rw [hown]
      exact ⟨fun heq => h.user.1 (Option.some.inj heq), fun heq => h.user.2 (Option.some.inj heq)⟩
    · simp [hown]
  rw [Requests.returned]
  cases herror : c.error with
  | none => exact Ok.leave_user hinv h.linked rfl huser.1 huser.2
  | some error =>
    have hfinal : c.id ∉ s.finals := h.asked (by simp [herror])
    cases handled with
    | true =>
      exact Ok.leave_user (hinv.finish hfinal h.lt) h.linked rfl huser.1 huser.2
    | false =>
      have hstrands := hstrands error rfl herror
      rcases h.own with hown | ⟨hown, hgone⟩
      · exact Ok.defaultError hinv hown h.linked rfl hfinal hstrands
      · obtain ⟨badGuestDcRequests, heq⟩ :=
          onErrorDefault_gone (s := { s with handling := none }) hgone hstrands
        have hrejected : Inv live (some c.id)
            { s with handling := none, badGuestDcRequests := badGuestDcRequests } :=
          h.inv.frame rfl (fun _ hk => hk) rfl rfl rfl rfl rfl rfl
        have hfailed : ({ s with handling := none } : Requests).defaultError c.id c.handlers error =
            ({ s with handling := none, badGuestDcRequests := badGuestDcRequests } : Requests).failed
              c.id c.handlers error := by
          rw [Requests.defaultError, heq]
        simp only [Bool.false_eq_true, if_false]
        rw [hfailed]
        cases hcallbacks : c.handlers with
        | user onDone onFail =>
          cases onFail with
          | false => exact Ok.leave_user hrejected h.linked rfl huser.1 huser.2
          | true =>
            refine ok_of_some ⟨c.id, .user onDone true, none⟩ rfl ⟨live, ?_⟩
            exact ⟨(hrejected.finish hfinal h.lt).frame rfl (fun _ hk => hk) rfl rfl rfl rfl rfl rfl,
              h.linked, by simp, h.lt, .inr ⟨hown, hgone⟩, fun herror => absurd rfl herror⟩
        | exportAuth => exact absurd hcallbacks h.user.1
        | importAuth => exact absurd hcallbacks h.user.2

theorem Ok.answer (hhandling : s.handling = none) (h : Inv (fun k => s.parserMap[k]?) none s)
    {session : Dc} {reply : Reply} (hsent : (session, id) ∈ s.sent)
    (hstrands : ¬s.Strands (.answer session id reply)) :
    Ok ({ s with sent := s.sent.erase (session, id) }.execCallback id reply) := by
  rw [execCallback]
  rw [Strands, not_or, not_or] at hstrands
  cases hcallbacks : s.parserMap[id]? with
  | none =>
    have hserved : ∀ (dcId : Dc) (k : Id), (dcId, k) ∈ s.authWaiters → k ∈ s.requestsByDc → k ≠ id →
        s.Outstanding (dropped (fun k => s.parserMap[k]?) id) dcId := fun dcId k hk hby _ =>
      (h.served dcId k hk hby).dropped (by simp [hcallbacks]) (by simp [hcallbacks])
    have hsame : dropped (fun k => s.parserMap[k]?) id = fun k => s.parserMap[k]? := by
      rw [dropped, ← hcallbacks]
      exact Function.update_eq_self id _
    have hleft := h.leave (s.sent.erase (session, id)) (fun k hk => ?_) List.erase_subset
      hserved
    · rw [hsame] at hleft
      exact ok_of_none hhandling hleft
    · have hperm := (List.perm_cons_erase hsent).map Prod.snd
      rw [hperm.count_eq, List.map_cons, List.count_cons_of_ne (Ne.symm hk)]
  | some callbacks =>
    have hlive : (fun k => s.parserMap[k]?) id ≠ none := by simp [hcallbacks]
    have htaken := h.taken hsent
    have hlink : Linked (fun k => s.parserMap[k]?) id (s.taken session id) :=
      linked_erase (fun _ => rfl) rfl
    have hfinal : id ∉ s.finals := fun hmem => by
      cases (h.final id hmem).2 hlive
    have herror : ∀ error, (reply = .error error ∨ (reply = .result false ∧
        error = .responseParseFailed)) → asksHandler callbacks error = false →
        ¬(s.taken session id).DefaultStrands id callbacks error := by
      intro error hreply hasks hdefault
      refine hstrands.1 ⟨session, id, callbacks, error, ?_, hcallbacks, hasks, hdefault⟩
      rcases hreply with rfl | ⟨rfl, rfl⟩
      · exact .inl rfl
      · exact .inr ⟨rfl, rfl⟩
    cases reply with
    | error error => exact Ok.handleError htaken hcallbacks hlink hhandling hfinal (herror error (.inl rfl))
    | result parses =>
      cases parses with
      | false =>
        exact Ok.handleError htaken hcallbacks hlink hhandling hfinal
          (herror .responseParseFailed (.inr ⟨rfl, rfl⟩))
      | true =>
        refine Ok.succeeded htaken hcallbacks hlink hhandling hfinal ?_
        rintro rfl hstranded
        exact hstrands.2.1 ⟨session, id, rfl, hcallbacks, hstranded⟩

theorem linked_of_none (hid : s.parserMap[id]? = none) :
    Linked (fun k => s.parserMap[k]?) id s := by
  intro k
  by_cases hk : k = id
  · rw [hk, dropped_self, hid]
  · rw [dropped_of_ne hk]

theorem Ok.send (h : Ok s) (callbacks : Handlers) (hcallbacks : callbacks ≠ .exportAuth) (dc : Dc)
    (after : Id) : Ok (s.sendRequest callbacks dc after) := by
  have hsend : ∀ {live air}, Inv live air s → air ≠ some s.nextRequestId →
      Inv (added live s.nextRequestId callbacks) air (s.sendRequest callbacks dc after) := by
    intro live air hinv hair
    have hsent := hinv.send hair callbacks dc after s.authExportRequests (fun _ _ _ => rfl)
      (fun heq => absurd heq hcallbacks) (fun _ hk => .inl hk)
    have hnew := hinv.unknown s.nextRequestId (.inl (Nat.le_refl _))
    rw [← (sendRequest_exports callbacks dc after hnew.2.2.2).1] at hsent
    exact hsent
  rw [Ok] at h
  cases hhandling : s.handling with
  | none =>
    simp only [hhandling] at h
    have hnew := h.unknown s.nextRequestId (.inl (Nat.le_refl _))
    obtain ⟨-, hkept, -, hparser⟩ := sendRequest_exports callbacks dc after hnew.2.2.2
    have hhandlers : (fun k => (s.sendRequest callbacks dc after).parserMap[k]?) =
        added (fun k => s.parserMap[k]?) s.nextRequestId callbacks := by
      -- nobody is handled, so the link to a request that does not exist tells the map
      have hnext : s.parserMap[s.nextRequestId + 1]? = none :=
        (h.unknown (s.nextRequestId + 1) (.inl (Nat.le_succ _))).1
      have hlinked := (linked_of_none hnext).added hnew.1 (Nat.ne_of_lt (Nat.lt_succ_self _))
        callbacks hparser
      funext k
      rw [hlinked k]
      by_cases hk : k = s.nextRequestId + 1
      · rw [hk, dropped_self, added]
        split
        · exact hnext.symm
        · rw [Function.update_of_ne (Nat.succ_ne_self _)]
          exact hnext.symm
      · rw [dropped_of_ne hk]
    refine ok_of_none (hkept.trans hhandling) ?_
    rw [hhandlers]
    exact hsend h (by simp)
  | some c =>
    simp only [hhandling] at h
    obtain ⟨live, hc⟩ := h
    have hnew := hc.inv.unknown s.nextRequestId (.inl (Nat.le_refl _))
    have hne : s.nextRequestId ≠ c.id := Nat.ne_of_gt hc.lt
    obtain ⟨-, hkept, hfinals, hparser⟩ := sendRequest_exports callbacks dc after hnew.2.2.2
    refine ok_of_some c (hkept.trans hhandling) ⟨_, hsend hc.inv ?_, ?_, hc.user, ?_, ?_, ?_⟩
    · exact fun heq => hne (Option.some.inj heq).symm
    · exact hc.linked.added hnew.1 hne callbacks hparser
    · rw [sendRequest_eq s callbacks dc after hnew.2.2.2]
      exact Nat.lt_succ_of_lt hc.lt
    · rw [added_of_lt hc.lt, sendRequest_eq s callbacks dc after hnew.2.2.2]
      refine hc.own.imp_right fun hgone => ⟨hgone.1, fun hmem => ?_⟩
      rcases Std.ExtTreeMap.mem_insert.mp hmem with heq | hmem
      · exact hne (Std.LawfulEqCmp.eq_of_compare heq)
      · exact hgone.2 hmem
    · rw [hfinals]
      exact hc.asked

theorem Ok.cancel (h : Ok s) (hexport : s.parserMap[id]? ≠ some .exportAuth)
    (himport : s.parserMap[id]? ≠ some .importAuth) : Ok (s.cancel id) := by
  rw [Ok] at h
  cases hhandling : s.handling with
  | none =>
    simp only [hhandling] at h
    refine ok_of_none hhandling ?_
    have hhandlers : (fun k => (s.cancel id).parserMap[k]?) =
        dropped (fun k => s.parserMap[k]?) id :=
      funext (linked_erase (fun _ => rfl) rfl)
    rw [hhandlers]
    exact h.cancel hexport himport
  | some c =>
    simp only [hhandling] at h
    obtain ⟨live, hc⟩ := h
    have hlive : live id ≠ some .exportAuth ∧ live id ≠ some .importAuth := by
      by_cases hid : id = c.id
      · rw [hid]
        rcases hc.own with hown | ⟨hown, -⟩
        · rw [hown]
          exact ⟨fun heq => hc.user.1 (Option.some.inj heq),
            fun heq => hc.user.2 (Option.some.inj heq)⟩
        · simp [hown]
      · rw [hc.linked id, dropped_of_ne hid] at hexport himport
        exact ⟨hexport, himport⟩
    refine ok_of_some c hhandling ⟨_, hc.inv.cancel hlive.1 hlive.2, fun k => ?_, hc.user, hc.lt, ?_,
      hc.asked⟩
    · change (s.parserMap.erase id)[k]? = _
      by_cases hk : k = id
      · rw [hk, Std.ExtTreeMap.getElem?_erase_self]
        by_cases hid : id = c.id
        · rw [hid, dropped_self]
        · rw [dropped_of_ne hid, dropped_self]
      · rw [getElem?_erase_key hk, hc.linked k]
        by_cases hkc : k = c.id
        · rw [hkc, dropped_self, dropped_self]
        · rw [dropped_of_ne hkc, dropped_of_ne hkc, dropped_of_ne hk]
    · by_cases hid : c.id = id
      · refine .inr ⟨?_, fun hmem => (mem_erase_key.mp hmem).1 hid⟩
        rw [hid, dropped_self]
      · rw [dropped_of_ne hid]
        exact hc.own.imp_right fun hgone => ⟨hgone.1, fun hmem => hgone.2 (mem_erase_key.mp hmem).2⟩

theorem Ok.frame (h : Ok s) (now : Int) (hasAuthorization : Bool) :
    Ok { s with now := now, hasAuthorization := hasAuthorization } := by
  rw [Ok] at h ⊢
  cases hhandling : s.handling with
  | none =>
    simp only [hhandling] at h ⊢
    exact h.frame rfl (fun _ hk => hk) rfl rfl rfl rfl rfl rfl
  | some c =>
    simp only [hhandling] at h ⊢
    obtain ⟨live, hc⟩ := h
    exact ⟨live, hc.inv.frame rfl (fun _ hk => hk) rfl rfl rfl rfl rfl rfl, hc.linked, hc.user,
      hc.lt, hc.own, hc.asked⟩

theorem Ok.step (h : Ok s) (hstep : KeepingStep s s') : Ok s' := by
  obtain ⟨a, hstep, hstrands⟩ := hstep
  cases a with
  | send onDone onFail dc after =>
    cases hstep
    exact h.send _ (by simp) dc after
  | cancel id =>
    rw [Requests.step] at hstep
    split at hstep
    · cases hstep
    · cases hstep
    · next hexport himport =>
      cases hstep
      exact h.cancel hexport himport
  | tick ms =>
    cases hstep
    exact h.frame _ _
  | authorize hasAuthorization =>
    cases hstep
    exact h.frame _ _
  | checkDelayed =>
    rw [Requests.step] at hstep
    split at hstep
    · next hhandling =>
      cases hstep
      rw [Ok, hhandling] at h
      have hkeeps := resendDue_keeps s s.delayedRequests
      refine ok_of_none (hkeeps.handling.trans hhandling) ?_
      have hparser : s.checkDelayedRequests.parserMap = s.parserMap := hkeeps.parserMap
      rw [hparser]
      exact h.checkDelayedRequests
    · cases hstep
  | answer session id reply =>
    rw [Requests.step] at hstep
    split at hstep
    · next hsent =>
      cases hstep
      rw [Ok, hsent.1] at h
      exact Ok.answer hsent.1 h hsent.2 hstrands
    · cases hstep
  | returned handled =>
    obtain ⟨c, hc, rfl⟩ := Option.map_eq_some_iff.mp hstep
    rw [Ok, hc] at h
    obtain ⟨live, hhandles⟩ := h
    refine Ok.returned hhandles fun error hhandled herror hdefault => ?_
    exact hstrands (.inr (.inr ⟨c, error, hhandled ▸ rfl, hc, herror, hdefault⟩))

theorem ok_init (mainDcId : Dc) : Ok { mainDcId } := by
  refine ok_of_none rfl ⟨?_, ?_, ?_, ?_, ?_, ?_, Nat.zero_lt_one, List.Pairwise.nil, List.nodup_nil,
    ?_⟩
  · intro id hid
    simp at hid
  · intro id hid
    simp at hid
  · intro dcId id hmem
    cases hmem
  · intro dcId id hmem
    cases hmem
  · intro id hid
    simp at hid
  · intro id hid
    simp [held]
  · intro id hmem
    cases hmem

theorem Inv.noneStranded (h : Inv live air s)
    (hlive : ∀ k h, s.parserMap[k]? = some h → live k = some h ∧ air ≠ some k)
    (hserved : ∀ dcId, s.Outstanding live dcId → s.Outstanding (fun k => s.parserMap[k]?) dcId) :
    s.NoneStranded := by
  have hcount : ∀ k h, s.parserMap[k]? = some h → s.held.count k = 1 := by
    intro k hk hget
    obtain ⟨hsome, hair⟩ := hlive k hk hget
    rw [h.placed k (by simp [hsome]), if_neg hair]
  refine ⟨fun k hk hget => h.registered k (by simp [(hlive k hk hget).1]), fun k hk hget => ?_,
    hcount, h.sorted, h.once⟩
  have hone := hcount k hk hget
  have hmem : k ∈ s.held := List.count_pos_iff.mp (by omega)
  rcases mem_held.mp hmem with hsent | hdelayed | ⟨dcId, hwaits⟩
  · exact .inl hsent
  · refine .inr (.inl ?_)
    have hpos := List.count_pos_iff.mpr hdelayed
    rw [count_held] at hone
    omega
  · have hreg := (h.registered k (by simp [(hlive k hk hget).1])).1
    obtain ⟨-, d, hd, rfl⟩ := h.waits dcId k hwaits hreg
    exact .inr (.inr ⟨d, hd, hwaits, hserved _ (h.served _ k hwaits hreg)⟩)

theorem Ok.noneStranded (h : Ok s) : s.NoneStranded := by
  rw [Ok] at h
  cases hhandling : s.handling with
  | none =>
    simp only [hhandling] at h
    exact h.noneStranded (fun k _ hget => ⟨hget, by simp⟩) fun _ hserved => hserved
  | some c =>
    simp only [hhandling] at h
    obtain ⟨live, hc⟩ := h
    refine hc.inv.noneStranded (fun k hk hget => ?_) fun dcId hserved => ?_
    · rw [hc.linked k] at hget
      have hsome : dropped live c.id k ≠ none := by simp [hget]
      have hne := (ne_of_dropped hsome).1
      rw [dropped_of_ne hne] at hget
      exact ⟨hget, fun heq => hne (Option.some.inj heq).symm⟩
    · rw [hc.linked.handlers]
      refine hserved.dropped ?_ ?_
      · rcases hc.own with hown | ⟨hown, -⟩
        · rw [hown]
          exact fun heq => hc.user.1 (Option.some.inj heq)
        · simp [hown]
      · rcases hc.own with hown | ⟨hown, -⟩
        · rw [hown]
          exact fun heq => hc.user.2 (Option.some.inj heq)
        · simp [hown]

/-- In a run whose steps strand nobody, every request with handlers waits in one place. -/
theorem keeping_noneStranded (mainDcId : Dc)
    (h : Relation.ReflTransGen KeepingStep { mainDcId } s) : s.NoneStranded := by
  have hok : Ok s := by
    induction h with
    | refl => exact ok_init mainDcId
    | tail _ hstep ih => exact ih.step hstep
  exact hok.noneStranded

theorem not_strands_of_asked {session : Dc} (callbacks : Handlers) {error : RPCError}
    (hget : s.parserMap[id]? = some callbacks) (hasks : asksHandler callbacks error = true) :
    ¬s.Strands (.answer session id (.error error)) := by
  rintro (⟨_, _, callbacks', error', heq | ⟨heq, -⟩, hget', hasks', -⟩ | ⟨_, _, heq, -⟩ |
    ⟨_, _, heq, -⟩)
  · cases heq
    rw [hget] at hget'
    cases hget'
    rw [hasks] at hasks'
    cases hasks'
  · cases heq
  · cases heq
  · cases heq

theorem not_strands_of_delays {c : Handling} {error : RPCError} (hc : s.handling = some c)
    (herror : c.error = some error) (htype : ∀ newdc, error.type ≠ .migrate newdc)
    (hdelays : delays error = true) (hreg : c.id ∈ s.requestsByDc) (handled : Bool) :
    ¬s.Strands (.returned handled) := by
  rintro (⟨_, _, _, _, heq | ⟨heq, -⟩, -⟩ | ⟨_, _, heq, -⟩ | ⟨c', error', -, hc', herror', hdefault⟩)
  · cases heq
  · cases heq
  · cases heq
  · rw [hc] at hc'
    cases hc'
    rw [herror] at herror'
    cases herror'
    rw [DefaultStrands] at hdefault
    split at hdefault
    · next newdc hmigrate => exact htype newdc hmigrate
    · rw [OtherStrands, if_pos hdelays] at hdefault
      exact hdefault hreg

/-- A request to the main dc gets a server error, and is delayed. -/
theorem delayed_noneStranded : ∃ s,
    run { mainDcId := 2 } [.send true true 0 0, .answer 2 1 (.error ⟨500, .other⟩),
      .returned false] = some s ∧ s.NoneStranded := by
  refine ⟨_, rfl, keeping_noneStranded 2 ?_⟩
  refine .head ⟨.send true true 0 0, rfl, by simp [Strands]⟩ ?_
  refine .head ⟨.answer 2 1 (.error ⟨500, .other⟩), rfl, ?_⟩ ?_
  · exact not_strands_of_asked (.user true true) (by decide) rfl
  · refine .single ⟨.returned false, rfl, ?_⟩
    exact not_strands_of_delays rfl rfl (by simp) rfl (by decide) false

/-- A request that waits for another one is taken out of its session when the wait has failed,
though the other one was just sent again. -/
theorem dependent_is_stranded :
    ¬∀ (mainDcId : Dc) (as : List Action) (s : Requests),
      run { mainDcId } as = some s → s.NoneStranded := by
  intro hall
  have hrun : (run { mainDcId := 2 } [.send true true 0 0, .send true true 0 1,
      .answer 2 1 (.error ⟨400, .connectionNotInited⟩),
      .answer 2 2 (.error ⟨400, .msgWaitFailed⟩)]).map (fun s => (s.parserMap[2]?, s.held)) =
      some (some (.user true true), [1]) := by decide
  obtain ⟨s, hs, hfields⟩ := Option.map_eq_some_iff.mp hrun
  obtain ⟨hmap, hheld⟩ := Prod.mk.inj hfields
  have hsingle := (hall 2 _ s hs).single 2 _ hmap
  rw [hheld] at hsingle
  exact absurd hsingle (by decide)

end TelegramClient.Mtproto.Requests
