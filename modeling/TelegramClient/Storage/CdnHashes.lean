import Mathlib
import TelegramClient.Storage.FileLoaderRequests

/-! Parts that wait for their hashes: whether a request that brings the hashes is on its way. -/

namespace TelegramClient.Storage.FileLoader

variable {w : World} {l l' : FileLoader} {offset : Nat} {offsets : List Nat}

/-- The hash request is in the books, and there is one when a part waits for its hash,
unless the loader has failed. -/
structure HashesPending (l : FileLoader) : Prop where
  sent : l.cdnHashesRequestId ≠ 0 → l.cdnHashesRequestId ∈ l.sentRequests
  waiting : l.cdnUncheckedParts ≠ ∅ →
    (∃ (id : Nat) (r : RequestData), l.sentRequests[id]? = some r ∧ r.kind = .hashes) ∨ l.cancelled

/-- The bytes of a part fit their hash, if it is known, and are not refused by the file. -/
def Takes (w : World) (l : FileLoader) (offset : Nat) (buffer : Bytes) : Prop :=
  l.checkCdnFileHash w offset buffer ≠ .invalid ∧
    (l.checkCdnFileHash w offset buffer = .good →
      buffer = [] ∨ l.fileIsOpen = false ∨ w.disk l.diskCalls)

/-- The event does not orphan the hash request: the cdn parameters are not dropped while a
part waits for its hash, and the loader is not cancelled while the request is pending. -/
def Spares (w : World) (l : FileLoader) : Event → Prop
  | .cancel => l.cdnHashesRequestId = 0
  | .done id (.cdnFile bytes) =>
    l.cdnHashesRequestId = 0 ∨ ∀ r ∈ l.sentRequests[id]?,
      l.Takes w r.offset (l.decryptPart w r.offset bytes)
  | .fail id e =>
    e.isDefaultHandledError ∨
      if e.isTokenInvalid then l.cdnUncheckedParts = ∅
      else l.cdnHashesRequestId = 0 ∨ id = l.cdnHashesRequestId
  | _ => True

/-- The hash request goes with the parts that wait. -/
structure Pending (l : FileLoader) : Prop where
  booked : Booked l
  sent : l.cdnHashesRequestId ≠ 0 → l.cdnUncheckedParts ≠ ∅ ∧
    ∃ r : RequestData, l.sentRequests[l.cdnHashesRequestId]? = some r ∧ r.kind = .hashes
  waiting : l.cdnUncheckedParts ≠ ∅ → l.cdnHashesRequestId ≠ 0 ∨ l.cancelled
  cancelled : l.cancelled → l.finished

theorem Pending.hashesPending (h : Pending l) : HashesPending l where
  sent hne := by
    obtain ⟨-, r, hget, -⟩ := h.sent hne
    exact Std.ExtTreeMap.mem_iff_isSome_getElem?.mpr (Option.isSome_of_eq_some hget)
  waiting hne := by
    rcases h.waiting hne with hid | hcancelled
    · obtain ⟨-, hr⟩ := h.sent hid
      exact .inl ⟨_, hr⟩
    · exact .inr hcancelled

/-- Without a hash request, the parts that wait must have been given up. -/
theorem pending_of_none (hb : Booked l) (hid : l.cdnHashesRequestId = 0)
    (hwaiting : l.cdnUncheckedParts = ∅ ∨ l.cancelled) (hcancelled : l.cancelled → l.finished) :
    Pending l :=
  ⟨hb, fun hne => absurd hid hne, fun hne => .inr (hwaiting.resolve_left hne), hcancelled⟩

theorem Pending.not_cancelled (h : Pending l) (hfin : l.finished = false) : l.cancelled = false := by
  cases hc : l.cancelled with
  | false => rfl
  | true => exact absurd (h.cancelled hc) (Bool.not_eq_true _ ▸ hfin)

theorem Pending.plain (h : Pending l) {id : Nat} {r : RequestData}
    (hget : l.sentRequests[id]? = some r) (hkind : r.kind.forCdn = false) :
    l.cdnHashesRequestId = 0 ∧ l.cdnUncheckedParts = ∅ ∧ l.cancelled = false := by
  have hmode : ¬l.cdn.dcId ≠ 0 := fun hcdn => by
    rw [(h.booked.mode id r hget).mpr hcdn] at hkind
    cases hkind
  have hid : l.cdnHashesRequestId = 0 := by
    by_contra hne
    obtain ⟨-, r', hget', hkind'⟩ := h.sent hne
    exact hmode ((h.booked.mode _ r' hget').mp (by rw [hkind']; rfl))
  have hcancelled := h.not_cancelled (h.booked.not_finished hget)
  refine ⟨hid, ?_, hcancelled⟩
  by_contra hne
  rcases h.waiting hne with hid' | hc
  · exact hid' hid
  · rw [hcancelled] at hc
    cases hc

theorem Pending.ne_hashes (h : Pending l) {id : Nat} {r : RequestData}
    (hget : l.sentRequests[id]? = some r) (hkind : r.kind ≠ .hashes) :
    id ≠ l.cdnHashesRequestId := by
  rintro rfl
  have hpos := (h.booked.ids _ r hget).2
  obtain ⟨-, r', hget', hkind'⟩ := h.sent (Nat.pos_iff_ne_zero.mp hpos)
  rw [hget] at hget'
  exact hkind (Option.some.inj hget' ▸ hkind')

theorem pending_cancel (hb : Booked l) (hid : l.cdnHashesRequestId = 0) : Pending l.cancel :=
  pending_of_none hb.cancel hid (.inr rfl) fun _ => rfl

theorem pending_of_requested (hreq : Requested l l' offsets) (h : Pending l)
    (hfin : l.finished = false) : Pending l' where
  booked := hreq.booked h.booked hfin
  sent hne := by
    have hkept := hreq.kept l.cdnHashesRequestId h.booked.current
    rw [hreq.same] at hne ⊢
    obtain ⟨hwaits, r, hget, hkind⟩ := h.sent hne
    exact ⟨hwaits, r, hkept.trans hget, hkind⟩
  waiting := by
    rw [hreq.same]
    exact h.waiting
  cancelled := by
    rw [hreq.same]
    exact h.cancelled

theorem Pending.finishSentRequest (h : Pending l) {id : Nat} (hid : id ≠ l.cdnHashesRequestId) :
    Pending (l.finishSentRequest id) where
  booked := h.booked.finishSentRequest id
  sent hne := by
    obtain ⟨hwaits, r, hget, hkind⟩ := h.sent hne
    refine ⟨hwaits, r, ?_, hkind⟩
    rw [getElem?_finishSentRequest]
    exact (if_neg (Ne.symm hid)).trans hget
  waiting := h.waiting
  cancelled := h.cancelled

/-- After `requestMoreCdnFileHashes` a request is pending if a part waits. -/
theorem pending_requestMore (hb : Booked l) (hfin : l.finished = false) (hcdn : l.cdn.dcId ≠ 0)
    (hcancelled : l.cancelled = false)
    (hsent : l.cdnHashesRequestId ≠ 0 → l.cdnUncheckedParts ≠ ∅ ∧
      ∃ r : RequestData, l.sentRequests[l.cdnHashesRequestId]? = some r ∧ r.kind = .hashes) :
    Pending l.requestMoreCdnFileHashes := by
  have hbooked := hb.requestMore hfin hcdn
  rcases requestMore_cases l with ⟨heq, hnone⟩ | ⟨offset, hzero, hmem, heq⟩
  · rw [heq] at hbooked ⊢
    refine ⟨hbooked, hsent, fun hne => .inl (hnone.resolve_right hne), fun hc => ?_⟩
    rw [hcancelled] at hc
    cases hc
  · rw [heq] at hbooked ⊢
    refine ⟨hbooked, fun _ => ⟨fun hempty => ?_, { dcId := l.dcId, offset, kind := .hashes }, ?_, rfl⟩,
      fun _ => .inl (Nat.succ_ne_zero _),
      fun hc => absurd (hc.symm.trans hcancelled) Bool.noConfusion⟩
    · have hempty' : l.cdnUncheckedParts = ∅ := hempty
      rw [hempty'] at hmem
      exact Std.ExtTreeMap.not_mem_empty hmem
    · exact (getElem?_placeSentRequest _ _).trans (if_pos rfl)

theorem pending_took {part : FedPart} (htook : Took l l' part) (h : Pending l)
    (hfin : l'.finished = l.finished ∨ l.Idle) (hnot : l.finished = false) : Pending l' := by
  have hbooked := htook.booked h.booked hfin
  have hcancelled := h.not_cancelled hnot
  rw [htook] at hbooked ⊢
  exact ⟨hbooked, h.sent, h.waiting, fun hc => absurd (hc.symm.trans hcancelled) Bool.noConfusion⟩

theorem pending_feedPart (h : Pending l) (hfin : l.finished = false) {buffer : Bytes}
    (hspares : l.cdnHashesRequestId = 0 ∨ buffer = [] ∨ l.fileIsOpen = false ∨ w.disk l.diskCalls) :
    Pending (l.feedPart w offset buffer).2 := by
  obtain ⟨l₁, htook, ⟨heq, hrefused⟩ | ⟨heq, hend⟩⟩ := feedPart_cases w l offset buffer
  · have hid : l.cdnHashesRequestId = 0 := by
      by_contra hne
      obtain ⟨-, r, hget, -⟩ := h.sent hne
      rcases hrefused with ⟨hopen, hdisk, hbuffer⟩ | hidle
      · rcases hspares with hzero | hempty | hclosed | hdisk'
        · exact hne hzero
        · exact hbuffer hempty
        · exact absurd (hopen.symm.trans hclosed) Bool.noConfusion
        · exact absurd (hdisk'.symm.trans hdisk) Bool.noConfusion
      · rw [hidle.1, Std.ExtTreeMap.getElem?_empty] at hget
        cases hget
    rw [heq]
    have hbooked := h.booked.feedPart w offset buffer
    rw [heq] at hbooked
    refine pending_of_none hbooked ?_ (.inr rfl) fun _ => rfl
    rw [htook]
    exact hid
  · rw [heq]
    exact pending_took htook h hend hfin

/-- An answer outside the cdn mode: nothing waits before it or after it. -/
theorem pending_of_plain {l₁ : FileLoader} (hb : Booked l') (hid : l₁.cdnHashesRequestId = 0)
    (hwaiting : l₁.cdnUncheckedParts = ∅) (hcancelled : l₁.cancelled = false)
    (hsame : l'.cdnHashesRequestId = l₁.cdnHashesRequestId ∧
      l'.cdnUncheckedParts = l₁.cdnUncheckedParts ∧
        (l'.cancelled = l₁.cancelled ∨ l'.finished)) : Pending l' := by
  refine pending_of_none hb (hsame.1.trans hid) (.inl (hsame.2.1.trans hwaiting)) fun hc => ?_
  rcases hsame.2.2 with heq | hfin
  · rw [heq, hcancelled] at hc
    cases hc
  · exact hfin

theorem feedPart_same (w : World) (l : FileLoader) (offset : Nat) (buffer : Bytes) :
    (l.feedPart w offset buffer).2.cdnHashesRequestId = l.cdnHashesRequestId ∧
      (l.feedPart w offset buffer).2.cdnUncheckedParts = l.cdnUncheckedParts ∧
      ((l.feedPart w offset buffer).2.cancelled = l.cancelled ∨
        (l.feedPart w offset buffer).2.finished) := by
  obtain ⟨l₁, htook, ⟨heq, -⟩ | ⟨heq, -⟩⟩ := feedPart_cases w l offset buffer
  · rw [heq, htook]
    exact ⟨rfl, rfl, .inr rfl⟩
  · rw [heq, htook]
    exact ⟨rfl, rfl, .inl rfl⟩

theorem webPartLoaded_same (w : World) (l : FileLoader) (offset size : Nat) (buffer : Bytes) :
    (l.webPartLoaded w offset size buffer).cdnHashesRequestId = l.cdnHashesRequestId ∧
      (l.webPartLoaded w offset size buffer).cdnUncheckedParts = l.cdnUncheckedParts ∧
      ((l.webPartLoaded w offset size buffer).cancelled = l.cancelled ∨
        (l.webPartLoaded w offset size buffer).finished) := by
  rw [webPartLoaded]
  split
  · exact feedPart_same w { l with size } offset buffer
  · split
    · exact ⟨rfl, rfl, .inr rfl⟩
    · exact feedPart_same w l offset buffer

theorem changeCDNParams_same (l : FileLoader) (offset : Nat) (dcId : DcId) (params : CdnParams)
    (hashes : List FileHash) :
    (l.changeCDNParams offset dcId params hashes).cdnHashesRequestId = l.cdnHashesRequestId ∧
      (l.changeCDNParams offset dcId params hashes).cdnUncheckedParts = l.cdnUncheckedParts ∧
      ((l.changeCDNParams offset dcId params hashes).cancelled = l.cancelled ∨
        (l.changeCDNParams offset dcId params hashes).finished) := by
  rcases changeCDNParams_cases l offset dcId params hashes with ⟨-, heq⟩ | ⟨-, hreq⟩ | ⟨-, hreq⟩
  · rw [heq]
    exact ⟨rfl, rfl, .inr rfl⟩
  · rw [hreq.same]
    exact ⟨rfl, rfl, .inl rfl⟩
  · rw [hreq.same]
    exact ⟨rfl, rfl, .inl rfl⟩

theorem Pending.cdnPartLoaded (h : Pending l) (hfin : l.finished = false) (hcdn : l.cdn.dcId ≠ 0)
    {bytes : Bytes}
    (hspares : l.cdnHashesRequestId = 0 ∨ l.Takes w offset (l.decryptPart w offset bytes)) :
    Pending (l.cdnPartLoaded w offset bytes) := by
  rw [FileLoader.cdnPartLoaded]
  cases hcheck : l.checkCdnFileHash w offset (l.decryptPart w offset bytes) with
  | noHash =>
    refine pending_requestMore (l := l.withUnchecked offset (l.decryptPart w offset bytes))
      ⟨h.booked.ids, h.booked.mode, h.booked.dc, h.booked.hashes, h.booked.current,
        h.booked.finished⟩ hfin hcdn (h.not_cancelled hfin) fun hne => ?_
    exact ⟨Std.ExtTreeMap.insertIfNew_ne_empty, (h.sent hne).2⟩
  | invalid =>
    exact pending_cancel h.booked (hspares.resolve_right fun htakes => htakes.1 hcheck)
  | good =>
    refine pending_feedPart h hfin ?_
    rcases hspares with hzero | htakes
    · exact .inl hzero
    · exact .inr (htakes.2 hcheck)

/-- What the loop over the unchecked parts keeps, and what holds when it was left. -/
theorem pending_checkParts (hb : Booked l) (hid : l.cdnHashesRequestId = 0)
    (hfin : l.finished = false) (hcdn : l.cdn.dcId ≠ 0) (hcancelled : l.cancelled = false)
    (parts : List (Nat × Bytes)) (some : Bool) :
    ((checkParts w parts l some).2 = none → Pending (checkParts w parts l some).1) ∧
      ((checkParts w parts l some).2 ≠ none → Booked (checkParts w parts l some).1 ∧
        (checkParts w parts l some).1.cdnHashesRequestId = 0 ∧
        (checkParts w parts l some).1.finished = false ∧
        (checkParts w parts l some).1.cdn.dcId ≠ 0 ∧
        (checkParts w parts l some).1.cancelled = false) := by
  refine @checkParts_keeps w (fun _ l => Booked l ∧ l.cdnHashesRequestId = 0 ∧
      l.finished = false ∧ l.cdn.dcId ≠ 0 ∧ l.cancelled = false) Pending
    (fun _ _ _ hl _ => hl) (fun _ _ _ hl _ => pending_cancel hl.1 hl.2.1)
    (fun part _ l l₁ taken hl _ hfed hend => ?_) (fun part _ l l₁ hl _ hfed hfin₁ => ?_)
    parts l some ⟨hb, hid, hfin, hcdn, hcancelled⟩
  · obtain ⟨hb, hid, hfin, hcdn, hcancelled⟩ := hl
    have hb' : Booked (l.withoutUnchecked part.1) :=
      ⟨hb.ids, hb.mode, hb.dc, hb.hashes, hb.current, hb.finished⟩
    have hbooked := hb'.feedPart w part.1 part.2
    obtain ⟨l₂, htook, ⟨heq, -⟩ | ⟨heq, hidle⟩⟩ :=
      feedPart_cases w (l.withoutUnchecked part.1) part.1 part.2
    · rw [hfed] at heq hbooked
      obtain ⟨-, rfl⟩ := Prod.mk.inj heq
      refine pending_of_none hbooked ?_ (.inr rfl) fun _ => rfl
      rw [htook]
      exact hid
    · rw [hfed] at heq hbooked
      obtain ⟨rfl, rfl⟩ := Prod.mk.inj heq
      have hfin₁ := hend.resolve_left Bool.noConfusion
      have hidle' := hidle.resolve_left fun hsame => by
        rw [hfin₁, withoutUnchecked, hfin] at hsame
        cases hsame
      refine pending_of_none hbooked ?_ (.inl ?_) fun _ => hfin₁
      · rw [htook]
        exact hid
      · rw [htook]
        exact hidle'.2
  · obtain ⟨hb, hid, hfin, hcdn, hcancelled⟩ := hl
    have hb' : Booked (l.withoutUnchecked part.1) :=
      ⟨hb.ids, hb.mode, hb.dc, hb.hashes, hb.current, hb.finished⟩
    have hbooked := hb'.feedPart w part.1 part.2
    obtain ⟨l₂, htook, ⟨heq, -⟩ | ⟨heq, -⟩⟩ :=
      feedPart_cases w (l.withoutUnchecked part.1) part.1 part.2
    · rw [hfed] at heq
      cases heq
    · rw [hfed] at heq hbooked
      obtain ⟨-, rfl⟩ := Prod.mk.inj heq
      refine ⟨hbooked, ?_, hfin₁, ?_, ?_⟩
      · rw [htook]
        exact hid
      · rw [htook]
        exact hcdn
      · rw [htook]
        exact hcancelled

theorem Pending.getCdnFileHashesDone {id : Nat} {r : RequestData} (h : Pending l)
    (hget : l.sentRequests[id]? = some r) (hkind : r.kind = .hashes) (dcId : DcId)
    (hashes : List FileHash) :
    Pending ((l.finishSentRequest id).getCdnFileHashesDone w dcId hashes) := by
  have hid := h.booked.hashes id r hget hkind
  have hfin := h.booked.not_finished hget
  have hb := (h.booked.withoutHashes id).addCdnHashes dcId hashes
  rw [forgetHashesRequest, if_pos hid] at hb
  have hloop := @pending_checkParts w _ hb rfl hfin
    ((h.booked.mode id r hget).mp (by rw [hkind]; rfl)) (h.not_cancelled hfin)
    l.cdnUncheckedParts.toList false
  rw [FileLoader.getCdnFileHashesDone]
  change Pending (partsChecked (checkParts w l.cdnUncheckedParts.toList
    (({ l with cdnHashesRequestId := 0 }.finishSentRequest id).addCdnHashes dcId hashes) false))
  generalize checkParts w l.cdnUncheckedParts.toList
    (({ l with cdnHashesRequestId := 0 }.finishSentRequest id).addCdnHashes dcId hashes) false =
    result at hloop
  obtain ⟨l₁, _ | _ | _⟩ := result
  · exact hloop.1 rfl
  · obtain ⟨hb₁, hid₁, -⟩ := hloop.2 (by simp)
    exact pending_cancel hb₁ hid₁
  · obtain ⟨hb₁, hid₁, hfin₁, hcdn₁, hcancelled₁⟩ := hloop.2 (by simp)
    exact pending_requestMore hb₁ hfin₁ hcdn₁ hcancelled₁ fun hne => absurd hid₁ hne

theorem Pending.place (h : Pending l) {r : RequestData} (hb : Booked (l.placeSentRequest r)) :
    Pending (l.placeSentRequest r) where
  booked := hb
  sent hne := by
    obtain ⟨hwaits, r', hget, hkind⟩ := h.sent hne
    have hnew : l.cdnHashesRequestId ≠ l.lastRequestId + 1 := by
      have hcurrent := h.booked.current
      omega
    refine ⟨hwaits, r', ?_, hkind⟩
    exact (getElem?_placeSentRequest _ _).trans ((if_neg hnew).trans hget)
  waiting := h.waiting
  cancelled := h.cancelled

theorem Pending.loadPart (h : Pending l) : Pending l.loadPart := by
  have hb := h.booked.loadPart
  rw [FileLoader.loadPart] at hb ⊢
  split
  · exact h
  · split
    · exact h
    · rename_i hfin _
      have hfin' : l.finished = false := Bool.not_eq_true _ ▸ fun hf => hfin (.inl hf)
      have hreq : Pending (l.makeRequest l.nextRequestOffset) :=
        pending_of_requested requested_one h hfin'
      refine ⟨⟨hreq.booked.ids, hreq.booked.mode, hreq.booked.dc, hreq.booked.hashes,
        hreq.booked.current, hreq.booked.finished⟩, hreq.sent, hreq.waiting, hreq.cancelled⟩

theorem Pending.handled (h : Pending l) {e : Event} (hstep : Handled w l e l')
    (hspares : Spares w l e) : Pending l' := by
  have hbooked := h.booked.handled hstep
  cases hstep with
  | loadPart => exact h.loadPart
  | setFileName filename =>
    rw [FileLoader.setFileName] at hbooked ⊢
    split
    · exact h
    · rename_i hset
      rw [if_neg hset] at hbooked
      exact ⟨hbooked, h.sent, h.waiting, h.cancelled⟩
  | cancel => exact pending_cancel h.booked hspares
  | @file id r bytes hget hkind =>
    obtain ⟨hid, hwaiting, hcancelled⟩ := h.plain hget (by rw [hkind]; rfl)
    exact pending_of_plain hbooked hid hwaiting hcancelled
      (feedPart_same w (l.finishSentRequest id) r.offset bytes)
  | @cdnRedirect id r params hashes hget hkind =>
    obtain ⟨hid, hwaiting, hcancelled⟩ := h.plain hget (by rw [hkind]; rfl)
    exact pending_of_plain hbooked hid hwaiting hcancelled
      (changeCDNParams_same (l.finishSentRequest id) _ _ _ _)
  | @webFile id r size bytes hget hkind =>
    obtain ⟨hid, hwaiting, hcancelled⟩ := h.plain hget (by rw [hkind]; rfl)
    exact pending_of_plain hbooked hid hwaiting hcancelled
      (webPartLoaded_same w (l.finishSentRequest id) r.offset size bytes)
  | @cdnFile id r bytes hget hkind =>
    have hne : id ≠ l.cdnHashesRequestId := h.ne_hashes hget (by simp [hkind])
    exact (h.finishSentRequest hne).cdnPartLoaded (h.booked.not_finished hget)
      ((h.booked.mode id r hget).mp (by rw [hkind]; rfl))
      (hspares.imp_right fun htakes => htakes r hget)
  | @reuploadNeeded id r hget hkind =>
    have hne : id ≠ l.cdnHashesRequestId := h.ne_hashes hget (by simp [hkind])
    exact (h.finishSentRequest hne).place hbooked
  | @reuploadDone id r hashes hget hkind =>
    have hne : id ≠ l.cdnHashesRequestId := h.ne_hashes hget (by simp [hkind])
    have hl := h.finishSentRequest hne
    have hl' : Pending ((l.finishSentRequest id).addCdnHashes r.dcId hashes) :=
      ⟨hl.booked.addCdnHashes r.dcId hashes, hl.sent, hl.waiting, hl.cancelled⟩
    exact pending_of_requested requested_one hl' (h.booked.not_finished hget)
  | @hashesDone id r hashes hget hkind => exact h.getCdnFileHashesDone hget hkind r.dcId hashes
  | temporary hget he => exact h
  | @staleReference id r e hget hkind =>
    obtain ⟨hid, hwaiting, hcancelled⟩ := h.plain hget (by rw [hkind]; rfl)
    exact pending_of_plain hbooked hid hwaiting hcancelled ⟨rfl, rfl, .inl rfl⟩
  | failed hget hkind => exact pending_cancel h.booked (h.plain hget hkind).1
  | @cdnFailed id r e hget hkind he htoken =>
    have hid := hspares.resolve_left (Bool.not_eq_true _ ▸ he)
    rw [htoken] at hid
    refine pending_of_none hbooked ?_ (.inr rfl) fun _ => rfl
    rw [forgetHashesRequest]
    split
    · rfl
    · exact hid.resolve_right ‹_›
  | @tokenInvalid id r e hget hkind he htoken =>
    have hempty := hspares.resolve_left (Bool.not_eq_true _ ▸ he)
    rw [htoken] at hempty
    have hid : l.cdnHashesRequestId = 0 := by
      by_contra hne
      exact (h.sent hne).1 hempty
    have hforget : l.forgetHashesRequest id = l := by
      rw [forgetHashesRequest, if_neg]
      rintro rfl
      exact absurd hid (Nat.pos_iff_ne_zero.mp (h.booked.ids _ r hget).2)
    rw [hforget] at hbooked ⊢
    exact pending_of_plain hbooked hid hempty (h.not_cancelled (h.booked.not_finished hget))
      (changeCDNParams_same (l.finishSentRequest id) _ _ _ _)
  | @refreshed id r hget hkind =>
    obtain ⟨hid, hwaiting, hcancelled⟩ := h.plain hget (by rw [hkind]; rfl)
    exact pending_of_plain hbooked hid hwaiting hcancelled ⟨rfl, rfl, .inl rfl⟩
  | notRefreshed changed hget hkind =>
    exact pending_cancel h.booked (h.plain hget (by rw [hkind]; rfl)).1

theorem pending_start (location : Location) (dcId : DcId) (size : Nat)
    (toCache : LoadToCacheSetting) (filename : String) :
    Pending (start location dcId size toCache filename) :=
  pending_of_none (booked_start location dcId size toCache filename) rfl (.inl rfl) (by simp [start])

def SparingStep (w : World) (l l' : FileLoader) : Prop := ∃ e, l.handle w e = some l' ∧ Spares w l e

/-- While every event spares the hash request, a part that waits has its request. -/
theorem hashesPending_of_spares (w : World) (location : Location) (dcId : DcId) (size : Nat)
    (toCache : LoadToCacheSetting) (filename : String)
    (h : Relation.ReflTransGen (SparingStep w) (start location dcId size toCache filename) l) :
    HashesPending l := by
  have hpending : Pending l := by
    induction h with
    | refl => exact pending_start location dcId size toCache filename
    | tail _ hstep ih =>
      obtain ⟨e, hhandle, hspares⟩ := hstep
      exact ih.handled (handled_of_handle hhandle) hspares
  exact hpending.hashesPending

/-! ### Runs on given events -/

def run (w : World) : FileLoader → List Event → Option FileLoader
  | l, [] => some l
  | l, e :: events => (l.handle w e).bind fun l => run w l events

theorem reachable_of_run {events : List Event} (h : run w l events = some l') : Reachable w l l' := by
  induction events generalizing l with
  | nil => exact Option.some.inj h ▸ .refl
  | cons e events ih =>
    obtain ⟨l₁, hhandle, hrun⟩ := Option.bind_eq_some_iff.mp h
    exact .head ⟨e, hhandle⟩ (ih hrun)

/-- SHA-256 of `abc` and what AES in counter mode makes of it under a zero key. -/
def abcWorld : World where
  disk _ := true
  sha256 _ := [0xba, 0x78, 0x16, 0xbf, 0x8f, 0x01, 0xcf, 0xea, 0x41, 0x41, 0x40, 0xde, 0x5d,
    0xae, 0x22, 0x23, 0xb0, 0x03, 0x61, 0xa3, 0x96, 0x17, 0x7a, 0x9c, 0xb4, 0x10, 0xff, 0x61,
    0xf2, 0x00, 0x15, 0xad]
  aesCtrEncrypt _ _ bytes := List.zipWith (· ^^^ ·) bytes [0xdc, 0x95, 0xc0]

def zeroKeyCdn : CdnParams :=
  { dcId := 203, token := [1], encryptionKey := .replicate 32 0, encryptionIV := .replicate 16 0 }

def abcEncrypted : Bytes := [0xbd, 0xf7, 0xa3]

def oneRequest : FileLoader := (start .storage 2 0 .loadToCacheAsWell "").loadPart

def oneRedirected : FileLoader := (oneRequest.finishSentRequest 1).changeCDNParams 0 2 zeroKeyCdn []

theorem hashesPending_of_spares_one :
    HashesPending ((oneRedirected.finishSentRequest 2).cdnPartLoaded abcWorld 0 abcEncrypted) := by
  have hfirst : oneRequest.sentRequests[1]? = some ⟨2, 0, .part⟩ := by decide
  have hsecond : oneRedirected.sentRequests[2]? = some ⟨203, 0, .cdnPart⟩ := by decide
  have hload : SparingStep abcWorld (start .storage 2 0 .loadToCacheAsWell "") oneRequest :=
    ⟨.loadPart, rfl, trivial⟩
  have hredirect : SparingStep abcWorld oneRequest oneRedirected :=
    ⟨.done 1 (.cdnRedirect zeroKeyCdn []), (handle_done hfirst).trans rfl, trivial⟩
  have hpart : SparingStep abcWorld oneRedirected
      ((oneRedirected.finishSentRequest 2).cdnPartLoaded abcWorld 0 abcEncrypted) :=
    ⟨.done 2 (.cdnFile abcEncrypted), (handle_done hsecond).trans rfl, .inl rfl⟩
  exact hashesPending_of_spares abcWorld .storage 2 0 .loadToCacheAsWell ""
    (.tail (.tail (.single hload) hredirect) hpart)

def orphaningEvents : List Event :=
  [.loadPart, .loadPart, .done 1 (.cdnRedirect zeroKeyCdn []), .done 4 (.cdnFile abcEncrypted),
    .fail 3 { code := 400, type := "FILE_TOKEN_INVALID" }]

/-- An invalid token of one part drops the hash request of another and asks for both as
parts; the first part is unchecked for good. -/
theorem tokenInvalid_orphans_hashes :
    ∃ l, Reachable abcWorld (start .storage 2 (2 * kDownloadCdnPartSize) .loadToCacheAsWell "") l ∧
      ¬(l.cdnHashesRequestId ≠ 0 → l.cdnHashesRequestId ∈ l.sentRequests) ∧
      ¬(l.cdnUncheckedParts ≠ ∅ →
        (∃ (id : Nat) (r : RequestData), l.sentRequests[id]? = some r ∧ r.kind = .hashes) ∨
          l.cancelled) := by
  have hrun : (run abcWorld (start .storage 2 (2 * kDownloadCdnPartSize) .loadToCacheAsWell "")
      orphaningEvents).any (fun l => l.cdnHashesRequestId == 5 && !l.cancelled &&
        !l.cdnUncheckedParts.isEmpty && l.sentRequests.toList == [(6, ⟨2, 0, .part⟩),
          (7, ⟨2, kDownloadCdnPartSize, .part⟩)]) = true := by
    decide
  obtain ⟨l, hl, hstate⟩ := (Option.any_eq_true _ _).mp hrun
  simp only [Bool.and_eq_true, beq_iff_eq, Bool.not_eq_eq_eq_not, Bool.not_true] at hstate
  obtain ⟨⟨⟨hid, hcancelled⟩, hwaiting⟩, hsent⟩ := hstate
  have hparts : ∀ (id : Nat) (r : RequestData), l.sentRequests[id]? = some r →
      (id = 6 ∨ id = 7) ∧ r.kind = .part := by
    intro id r hget
    have hmem := Std.ExtTreeMap.mem_toList_iff_getElem?_eq_some.mpr hget
    rw [hsent] at hmem
    simp only [List.mem_cons, Prod.mk.injEq, List.not_mem_nil, or_false] at hmem
    rcases hmem with ⟨rfl, rfl⟩ | ⟨rfl, rfl⟩
    · exact ⟨.inl rfl, rfl⟩
    · exact ⟨.inr rfl, rfl⟩
  refine ⟨l, reachable_of_run hl, fun hsent => ?_, fun hwaits => ?_⟩
  · have hmem := hsent (by simp [hid])
    obtain ⟨r, hget⟩ := Option.isSome_iff_exists.mp
      (Std.ExtTreeMap.mem_iff_isSome_getElem?.mp hmem)
    have hfive := (hparts _ r hget).1
    omega
  · rcases hwaits (Std.ExtTreeMap.isEmpty_eq_false_iff.mp hwaiting) with ⟨id, r, hget, hkind⟩ | hc
    · rw [(hparts id r hget).2] at hkind
      cases hkind
    · exact absurd (hc.symm.trans hcancelled) Bool.noConfusion

end TelegramClient.Storage.FileLoader
