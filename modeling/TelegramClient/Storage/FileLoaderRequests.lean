import Mathlib
import TelegramClient.Storage.FileLoader

/-! The requests in the books of a file loader: what each operation adds and removes. -/

namespace TelegramClient.Storage

def RequestKind.forCdn : RequestKind → Bool
  | .cdnPart | .reupload | .hashes => true
  | .part | .webPart | .refreshing => false

namespace FileLoader

variable {w : World} {l l' : FileLoader} {offset : Nat} {offsets : List Nat}

theorem getElem?_placeSentRequest (r : RequestData) (id : Nat) :
    (l.placeSentRequest r).sentRequests[id]? =
      if id = l.lastRequestId + 1 then some r else l.sentRequests[id]? := by
  simp only [placeSentRequest, Std.ExtTreeMap.getElem?_insert,
    Std.LawfulEqCmp.compare_eq_iff_eq, @eq_comm Nat id]

theorem placeSentRequest_cases {r r' : RequestData} {id : Nat}
    (hget : (l.placeSentRequest r).sentRequests[id]? = some r') :
    (id = l.lastRequestId + 1 ∧ r' = r) ∨ l.sentRequests[id]? = some r' := by
  rw [getElem?_placeSentRequest] at hget
  split at hget
  · exact .inl ⟨‹_›, (Option.some.inj hget).symm⟩
  · exact .inr hget

theorem getElem?_finishSentRequest (id id' : Nat) :
    (l.finishSentRequest id).sentRequests[id']? =
      if id' = id then none else l.sentRequests[id']? := by
  simp only [finishSentRequest, Std.ExtTreeMap.getElem?_erase,
    Std.LawfulEqCmp.compare_eq_iff_eq, @eq_comm Nat id']

theorem prepareRequest_offset : (l.prepareRequest offset).offset = offset := by
  rw [prepareRequest]
  split
  · rfl
  · cases l.location <;> rfl

theorem prepareRequest_kind :
    (l.cdn.dcId ≠ 0 ∧ (l.prepareRequest offset).kind = .cdnPart) ∨
      l.cdn.dcId = 0 ∧ (l.prepareRequest offset).dcId = l.dcId ∧
        ((l.prepareRequest offset).kind = .webPart ∨ (l.prepareRequest offset).kind = .part) := by
  by_cases hcdn : l.cdn.dcId = 0
  · refine .inr ⟨hcdn, ?_⟩
    rw [prepareRequest, if_neg (not_not.mpr hcdn)]
    cases l.location
    · exact ⟨rfl, .inr rfl⟩
    · exact ⟨rfl, .inl rfl⟩
  · refine .inl ⟨hcdn, ?_⟩
    rw [prepareRequest, if_pos hcdn]

theorem prepareRequest_ne_hashes : (l.prepareRequest offset).kind ≠ .hashes := by
  rcases @prepareRequest_kind l offset with ⟨-, hkind⟩ | ⟨-, -, hkind | hkind⟩
  · simp [hkind]
  · simp [hkind]
  · simp [hkind]

/-- The offsets were requested as parts, and nothing else changed. -/
structure Requested (l l' : FileLoader) (offsets : List Nat) : Prop where
  same : l' = { l with
    sentRequests := l'.sentRequests
    lastRequestId := l'.lastRequestId }
  last : l.lastRequestId ≤ l'.lastRequestId
  kept : ∀ id, id ≤ l.lastRequestId → l'.sentRequests[id]? = l.sentRequests[id]?
  new : ∀ (id : Nat) (r : RequestData), l'.sentRequests[id]? = some r → l.sentRequests[id]? = some r ∨
    (id ≤ l'.lastRequestId ∧ 0 < id) ∧ ∃ offset ∈ offsets, r = l.prepareRequest offset
  each : ∀ offset ∈ offsets, ∃ id, l.lastRequestId < id ∧ id ≤ l'.lastRequestId ∧
    l'.sentRequests[id]? = some (l.prepareRequest offset)

theorem requested_one : Requested l (l.makeRequest offset) [offset] where
  same := rfl
  last := Nat.le_succ _
  kept id hid := by
    rw [makeRequest, getElem?_placeSentRequest, if_neg (by omega)]
  new id r h := by
    rw [makeRequest, getElem?_placeSentRequest] at h
    split at h
    · rename_i hid
      exact .inr ⟨⟨hid.le, by omega⟩, offset, List.mem_singleton_self _, (Option.some.inj h).symm⟩
    · exact .inl h
  each o ho := by
    rw [List.mem_singleton.mp ho]
    exact ⟨_, Nat.lt_succ_self _, Nat.le_refl _, by rw [makeRequest, getElem?_placeSentRequest, if_pos rfl]⟩

theorem Requested.prepare (h : Requested l l' offsets) :
    l'.prepareRequest offset = l.prepareRequest offset := by
  rw [h.same]
  rfl

theorem Requested.cons {l'' : FileLoader} (h : Requested l l' [offset])
    (h' : Requested l' l'' offsets) : Requested l l'' (offset :: offsets) where
  same := by
    have hsame := h'.same
    rw [h.same] at hsame
    exact hsame
  last := h.last.trans h'.last
  kept id hid := (h'.kept id (hid.trans h.last)).trans (h.kept id hid)
  new id r hget := by
    rcases h'.new id r hget with hget | ⟨hid, o, ho, hr⟩
    · rcases h.new id r hget with hget | ⟨hid, o, ho, hr⟩
      · exact .inl hget
      · rw [List.mem_singleton.mp ho] at hr
        exact .inr ⟨⟨hid.1.trans h'.last, hid.2⟩, offset, List.mem_cons_self .., hr⟩
    · exact .inr ⟨hid, o, List.mem_cons_of_mem _ ho, hr.trans h.prepare⟩
  each o ho := by
    rcases List.mem_cons.mp ho with rfl | ho
    · obtain ⟨id, hlt, hle, hget⟩ := h.each o (List.mem_singleton_self _)
      exact ⟨id, hlt, hle.trans h'.last, (h'.kept id hle).trans hget⟩
    · obtain ⟨id, hlt, hle, hget⟩ := h'.each o ho
      rw [h.prepare] at hget
      exact ⟨id, h.last.trans_lt hlt, hle, hget⟩

theorem requested_foldl (l : FileLoader) (offset : Nat) (offsets : List Nat) :
    Requested l ((offsets.foldl makeRequest l).makeRequest offset) (offsets ++ [offset]) := by
  induction offsets generalizing l with
  | nil => exact requested_one
  | cons o offsets ih => exact requested_one.cons (ih _)

/-- The offsets of the requests in the books, in the order of their ids. -/
def sentOffsets (l : FileLoader) : List Nat := l.sentRequests.toList.map (·.2.offset)

/-- The loader with its new cdn parameters and hashes. -/
def withCdn (l : FileLoader) (dcId : DcId) (params : CdnParams) (hashes : List FileHash) :
    FileLoader :=
  { l with cdn := params }.addCdnHashes dcId hashes

theorem changeCDNParams_cases (l : FileLoader) (offset : Nat) (dcId : DcId) (params : CdnParams)
    (hashes : List FileHash) :
    (params.dcId ≠ 0 ∧ l.changeCDNParams offset dcId params hashes = l.cancel) ∨
      (l.cdn ≠ params ∧ Requested { l.withCdn dcId params hashes with sentRequests := ∅ }
        (l.changeCDNParams offset dcId params hashes) (l.sentOffsets ++ [offset])) ∨
      (l.cdn = params ∧ Requested (l.withCdn dcId params hashes)
        (l.changeCDNParams offset dcId params hashes) [offset]) := by
  rw [changeCDNParams]
  split
  · rename_i hbad
    exact .inl ⟨hbad.1, rfl⟩
  · by_cases hsame : l.cdn = params
    · refine .inr (.inr ⟨hsame, ?_⟩)
      simp only [hsame, ne_eq, not_true_eq_false, if_false]
      exact requested_one
    · refine .inr (.inl ⟨hsame, ?_⟩)
      simp only [ne_eq, hsame, not_false_eq_true, if_true]
      exact requested_foldl _ _ _

/-- The books agree with the mode of the loader. -/
structure Booked (l : FileLoader) : Prop where
  ids : ∀ (id : Nat) (r : RequestData), l.sentRequests[id]? = some r → id ≤ l.lastRequestId ∧ 0 < id
  mode : ∀ (id : Nat) (r : RequestData), l.sentRequests[id]? = some r → (r.kind.forCdn ↔ l.cdn.dcId ≠ 0)
  dc : ∀ (id : Nat) (r : RequestData), l.sentRequests[id]? = some r → r.kind ≠ .cdnPart → r.dcId = l.dcId
  hashes : ∀ (id : Nat) (r : RequestData), l.sentRequests[id]? = some r → r.kind = .hashes →
    id = l.cdnHashesRequestId
  current : l.cdnHashesRequestId ≤ l.lastRequestId
  finished : l.finished → l.sentRequests = ∅

theorem Booked.not_finished (h : Booked l) {id : Nat} {r : RequestData}
    (hget : l.sentRequests[id]? = some r) : l.finished = false := by
  cases hfin : l.finished with
  | false => rfl
  | true =>
    rw [h.finished hfin, Std.ExtTreeMap.getElem?_empty] at hget
    cases hget

theorem Requested.booked (hreq : Requested l l' offsets) (h : Booked l)
    (hfin : l.finished = false) : Booked l' := by
  have hnew : ∀ (id : Nat) (r : RequestData), l'.sentRequests[id]? = some r → l.sentRequests[id]? = some r ∨
      (id ≤ l'.lastRequestId ∧ 0 < id) ∧ (r.kind.forCdn ↔ l.cdn.dcId ≠ 0) ∧
        (r.kind ≠ .cdnPart → r.dcId = l.dcId) ∧ r.kind ≠ .hashes := by
    intro id r hget
    rcases hreq.new id r hget with hget | ⟨hid, o, -, rfl⟩
    · exact .inl hget
    · refine .inr ⟨hid, ?_⟩
      rcases @prepareRequest_kind l o with ⟨hcdn, hkind⟩ | ⟨hcdn, hdc, hkind | hkind⟩
      · simp [hkind, RequestKind.forCdn, hcdn]
      · simp [hkind, RequestKind.forCdn, hcdn, hdc]
      · simp [hkind, RequestKind.forCdn, hcdn, hdc]
  rw [hreq.same]
  refine ⟨fun id r hget => ?_, fun id r hget => ?_, fun id r hget => ?_, fun id r hget => ?_,
    h.current.trans hreq.last, fun hfin' => ?_⟩
  · rcases hnew id r hget with hget | ⟨hid, -⟩
    · exact ⟨(h.ids id r hget).1.trans hreq.last, (h.ids id r hget).2⟩
    · exact hid
  · exact (hnew id r hget).elim (h.mode id r) fun hnew => hnew.2.1
  · exact (hnew id r hget).elim (h.dc id r) fun hnew => hnew.2.2.1
  · exact (hnew id r hget).elim (h.hashes id r) fun hnew => (absurd · hnew.2.2.2)
  · exact absurd (hfin'.symm.trans hfin) Bool.noConfusion

theorem booked_of_empty (hsent : l.sentRequests = ∅)
    (hcurrent : l.cdnHashesRequestId ≤ l.lastRequestId) : Booked l := by
  have hnone : ∀ (id : Nat) (r : RequestData), l.sentRequests[id]? ≠ some r := by
    intro id r
    simp [hsent]
  exact ⟨fun id r hget => absurd hget (hnone id r), fun id r hget => absurd hget (hnone id r),
    fun id r hget => absurd hget (hnone id r), fun id r hget => absurd hget (hnone id r),
    hcurrent, fun _ => hsent⟩

theorem Booked.cancel (h : Booked l) : Booked l.cancel := booked_of_empty rfl h.current

theorem Booked.finishSentRequest (h : Booked l) (id : Nat) :
    Booked (l.finishSentRequest id) := by
  have hold : ∀ (id' : Nat) (r : RequestData), (l.finishSentRequest id).sentRequests[id']? = some r →
      l.sentRequests[id']? = some r := by
    intro id' r hget
    rw [getElem?_finishSentRequest] at hget
    split at hget
    · cases hget
    · exact hget
  refine ⟨fun id' r hget => h.ids id' r (hold id' r hget),
    fun id' r hget => h.mode id' r (hold id' r hget), fun id' r hget => h.dc id' r (hold id' r hget),
    fun id' r hget => h.hashes id' r (hold id' r hget), h.current, fun hfin => ?_⟩
  rw [FileLoader.finishSentRequest, h.finished hfin, Std.ExtTreeMap.erase_empty]

theorem Booked.changeCDNParams (h : Booked l) (hfin : l.finished = false) (offset : Nat)
    (dcId : DcId) (params : CdnParams) (hashes : List FileHash) :
    Booked (l.changeCDNParams offset dcId params hashes) := by
  rcases changeCDNParams_cases l offset dcId params hashes with
    ⟨-, heq⟩ | ⟨-, hreq⟩ | ⟨hsame, hreq⟩
  · rw [heq]
    exact h.cancel
  · exact hreq.booked (booked_of_empty rfl h.current) hfin
  · refine hreq.booked ?_ hfin
    subst hsame
    exact ⟨h.ids, h.mode, h.dc, h.hashes, h.current, h.finished⟩

theorem requestMore_cases (l : FileLoader) :
    (l.requestMoreCdnFileHashes = l ∧
      (l.cdnHashesRequestId ≠ 0 ∨ l.cdnUncheckedParts = ∅)) ∨
      ∃ offset, l.cdnHashesRequestId = 0 ∧ offset ∈ l.cdnUncheckedParts ∧
        l.requestMoreCdnFileHashes =
          { l.placeSentRequest { dcId := l.dcId, offset, kind := .hashes } with
            cdnHashesRequestId := l.lastRequestId + 1 } := by
  rw [requestMoreCdnFileHashes, ← Std.ExtTreeMap.minKey?_eq_head?_keys]
  split
  · exact .inl ⟨rfl, .inl ‹_›⟩
  · cases hmin : l.cdnUncheckedParts.minKey? with
    | none => exact .inl ⟨rfl, .inr (Std.ExtTreeMap.minKey?_eq_none_iff.mp hmin)⟩
    | some offset =>
      exact .inr ⟨offset, not_not.mp ‹_›, Std.ExtTreeMap.minKey?_mem hmin, rfl⟩

theorem Booked.requestMore (h : Booked l) (hfin : l.finished = false) (hcdn : l.cdn.dcId ≠ 0) :
    Booked l.requestMoreCdnFileHashes := by
  rcases requestMore_cases l with ⟨heq, -⟩ | ⟨offset, hzero, -, heq⟩
  · rw [heq]
    exact h
  · rw [heq]
    refine ⟨fun id r hget => ?_, fun id r hget => ?_, fun id r hget => ?_, fun id r hget => ?_,
      Nat.le_refl _, fun hfin' => absurd (hfin'.symm.trans hfin) Bool.noConfusion⟩
    · rcases placeSentRequest_cases hget with ⟨rfl, -⟩ | hget
      · exact ⟨Nat.le_refl _, Nat.succ_pos _⟩
      · exact ⟨Nat.le_succ_of_le (h.ids id r hget).1, (h.ids id r hget).2⟩
    · rcases placeSentRequest_cases hget with ⟨-, rfl⟩ | hget
      · exact iff_of_true rfl hcdn
      · exact h.mode id r hget
    · rcases placeSentRequest_cases hget with ⟨-, rfl⟩ | hget
      · exact fun _ => rfl
      · exact h.dc id r hget
    · rcases placeSentRequest_cases hget with ⟨rfl, -⟩ | hget
      · exact fun _ => rfl
      · intro hkind
        have hid := h.hashes id r hget hkind
        have hpos := (h.ids id r hget).2
        omega

/-! ### Feeding a part -/

/-- A part was fed: its bytes went to the result and nothing else changed. -/
def Took (l l' : FileLoader) (part : FedPart) : Prop :=
  l' = { l with
    file := l'.file
    fileIsOpen := l'.fileIsOpen
    data := l'.data
    skippedBytes := l'.skippedBytes
    lastComplete := l'.lastComplete
    finished := l'.finished
    diskCalls := l'.diskCalls
    fed := l.fed ++ [part] }

/-- Nothing is asked for or waits for its hash. -/
def Idle (l : FileLoader) : Prop := l.sentRequests = ∅ ∧ l.cdnUncheckedParts = ∅

theorem writePart_cases (w : World) (l : FileLoader) (offset : Nat) (buffer : Bytes) :
    (l.writePart w offset buffer = none ∧
      l.fileIsOpen ∧ w.disk l.diskCalls = false ∧ buffer ≠ []) ∨
      ∃ l₁, l.writePart w offset buffer = some l₁ ∧ l₁ = { l with
        file := l₁.file
        data := l₁.data
        skippedBytes := l₁.skippedBytes
        diskCalls := l₁.diskCalls } := by
  rw [writePart]
  split
  · exact .inr ⟨l, rfl, rfl⟩
  · split
    · cases hdisk : w.disk l.diskCalls with
      | false =>
        refine .inl ⟨?_, ‹_›, rfl, ‹_›⟩
        simp only [writeToFile, hdisk, Bool.false_eq_true, if_false]
      | true =>
        refine .inr ⟨_, by simp only [writeToFile, hdisk, if_true]; rfl, rfl⟩
    · refine .inr ⟨_, rfl, ?_⟩
      rw [writeToData]
      split <;> rfl

theorem isComplete_idle (h : l.isComplete) : l.Idle := by
  rw [isComplete, Bool.and_eq_true, Bool.and_eq_true] at h
  exact ⟨Std.ExtTreeMap.isEmpty_iff.mp h.1.1, Std.ExtTreeMap.isEmpty_iff.mp h.1.2⟩

theorem saveData_cases (w : World) (l : FileLoader) :
    l.saveData w = none ∨ ∃ l₁, l.saveData w = some l₁ ∧ l₁ = { l with
      file := l₁.file
      diskCalls := l₁.diskCalls
      fileIsOpen := l₁.fileIsOpen } := by
  rw [saveData, openFile]
  split
  · split
    · rw [Option.bind_some]
      split
      · exact .inr ⟨_, rfl, rfl⟩
      · exact .inl rfl
    · split
      · rw [Option.bind_some]
        split
        · exact .inr ⟨_, rfl, rfl⟩
        · exact .inl rfl
      · exact .inl rfl
  · exact .inr ⟨l, rfl, rfl⟩

theorem finish_cases (w : World) (l : FileLoader) :
    l.finish w = (false, l.cancel) ∨ ∃ l₁, l.finish w = (true, l₁) ∧ l₁ = { l with
      file := l₁.file
      diskCalls := l₁.diskCalls
      finished := true
      fileIsOpen := false } := by
  rw [finish]
  rcases saveData_cases w l with heq | ⟨l₁, heq, hsame⟩
  · rw [heq]
    exact .inl rfl
  · rw [heq]
    refine .inr ⟨_, rfl, ?_⟩
    rw [hsame]

theorem partWritten_cases (w : World) (l : FileLoader) (buffer : Bytes) :
    (∃ l₁ : FileLoader, l.partWritten w buffer = (false, l₁.cancel) ∧ l.Idle ∧
      l₁ = { l with lastComplete := l₁.lastComplete }) ∨
      ∃ l₁, l.partWritten w buffer = (true, l₁) ∧ (l₁.finished = l.finished ∨ l.Idle) ∧
        l₁ = { l with
          file := l₁.file
          diskCalls := l₁.diskCalls
          lastComplete := l₁.lastComplete
          finished := l₁.finished
          fileIsOpen := l₁.fileIsOpen } := by
  rw [partWritten]
  split
  · rename_i hcomplete
    have hidle := isComplete_idle hcomplete
    rcases finish_cases w { l with lastComplete := l.lastComplete || isLast buffer } with
      heq | ⟨l₁, heq, hsame⟩
    · exact .inl ⟨_, heq, hidle, rfl⟩
    · exact .inr ⟨l₁, heq, .inr hidle, by rw [hsame]⟩
  · exact .inr ⟨_, rfl, .inl rfl, rfl⟩

theorem feedPart_cases (w : World) (l : FileLoader) (offset : Nat) (buffer : Bytes) :
    ∃ l₁, Took l l₁ (l.fedPart offset buffer) ∧
      ((l.feedPart w offset buffer = (false, l₁.cancel) ∧
        ((l.fileIsOpen ∧ w.disk l.diskCalls = false ∧ buffer ≠ []) ∨ l.Idle)) ∨
      (l.feedPart w offset buffer = (true, l₁) ∧ (l₁.finished = l.finished ∨ l.Idle))) := by
  rw [feedPart]
  rcases writePart_cases w (l.addToHistory (l.fedPart offset buffer)) offset buffer with
    ⟨heq, hrefused⟩ | ⟨l₁, heq, hsame⟩
  · rw [heq]
    exact ⟨l.addToHistory (l.fedPart offset buffer), rfl, .inl ⟨rfl, .inl hrefused⟩⟩
  · rw [heq]
    rcases partWritten_cases w l₁ buffer with ⟨l₂, heq₂, hidle, hsame₂⟩ | ⟨l₂, heq₂, hfin, hsame₂⟩
    · rw [hsame] at hidle
      exact ⟨l₂, by rw [Took, hsame₂, hsame]; rfl, .inl ⟨heq₂, .inr hidle⟩⟩
    · rw [hsame] at hfin
      exact ⟨l₂, by rw [Took, hsame₂, hsame]; rfl, .inr ⟨heq₂, hfin⟩⟩

theorem Took.booked {part : FedPart} (h : Took l l' part) (hl : Booked l)
    (hfin : l'.finished = l.finished ∨ l.Idle) : Booked l' := by
  rw [h]
  refine ⟨hl.ids, hl.mode, hl.dc, hl.hashes, hl.current, fun hf => ?_⟩
  rcases hfin with hfin | hidle
  · exact hl.finished (hfin ▸ hf)
  · exact hidle.1

theorem Booked.feedPart (h : Booked l) (w : World) (offset : Nat) (buffer : Bytes) :
    Booked (l.feedPart w offset buffer).2 := by
  obtain ⟨l₁, htook, ⟨heq, -⟩ | ⟨heq, hfin⟩⟩ := feedPart_cases w l offset buffer
  · rw [heq]
    refine booked_of_empty rfl ?_
    rw [htook]
    exact h.current
  · rw [heq]
    exact htook.booked h hfin

/-! ### The loop over the parts that wait for their hashes -/

/-- What the loop keeps: `P` of the parts to come and the state while it runs, `Q` of
the state when the handler returns from inside it. -/
theorem checkParts_keeps {P : List (Nat × Bytes) → FileLoader → Prop} {Q : FileLoader → Prop}
    (hskip : ∀ part parts l, P (part :: parts) l →
      l.checkCdnFileHash w part.1 part.2 = .noHash → P parts l)
    (hcancel : ∀ part parts l, P (part :: parts) l →
      l.checkCdnFileHash w part.1 part.2 = .invalid → Q l.cancel)
    (hreturn : ∀ part parts l l₁ taken, P (part :: parts) l →
      l.checkCdnFileHash w part.1 part.2 = .good →
      (l.withoutUnchecked part.1).feedPart w part.1 part.2 = (taken, l₁) →
      taken = false ∨ l₁.finished = true → Q l₁)
    (hgood : ∀ part parts l l₁, P (part :: parts) l →
      l.checkCdnFileHash w part.1 part.2 = .good →
      (l.withoutUnchecked part.1).feedPart w part.1 part.2 = (true, l₁) →
      l₁.finished = false → P parts l₁)
    (parts : List (Nat × Bytes)) (l : FileLoader) (some : Bool) (hl : P parts l) :
    ((checkParts w parts l some).2 = none → Q (checkParts w parts l some).1) ∧
      ((checkParts w parts l some).2 ≠ none → P [] (checkParts w parts l some).1) := by
  induction parts generalizing l some with
  | nil => exact ⟨by simp [checkParts], fun _ => hl⟩
  | cons part parts ih =>
    rw [checkParts]
    cases hcheck : l.checkCdnFileHash w part.1 part.2 with
    | noHash => exact ih l some (hskip part parts l hl hcheck)
    | invalid => exact ⟨fun _ => hcancel part parts l hl hcheck, fun h => absurd rfl h⟩
    | good =>
      cases hfed : (l.withoutUnchecked part.1).feedPart w part.1 part.2 with
      | mk taken l₁ =>
        dsimp only
        cases htaken : taken with
        | false =>
          exact ⟨fun _ => hreturn part parts l l₁ taken hl hcheck hfed (.inl htaken),
            fun h => absurd rfl h⟩
        | true =>
          cases hfin : l₁.finished with
          | true =>
            exact ⟨fun _ => hreturn part parts l l₁ taken hl hcheck hfed (.inr hfin),
              fun h => absurd rfl h⟩
          | false =>
            rw [htaken] at hfed
            exact ih l₁ true (hgood part parts l l₁ hl hcheck hfed hfin)

/-! ### What an event does -/

inductive Handled (w : World) (l : FileLoader) : Event → FileLoader → Prop where
  | loadPart : Handled w l .loadPart l.loadPart
  | setFileName (filename : String) : Handled w l (.setFileName filename) (l.setFileName filename)
  | cancel : Handled w l .cancel l.cancel
  | file {id : Nat} {r : RequestData} (bytes : Bytes) (hget : l.sentRequests[id]? = some r)
      (hkind : r.kind = .part) :
      Handled w l (.done id (.file bytes)) ((l.finishSentRequest id).partLoaded w r.offset bytes)
  | cdnRedirect {id : Nat} {r : RequestData} (params : CdnParams) (hashes : List FileHash)
      (hget : l.sentRequests[id]? = some r) (hkind : r.kind = .part) :
      Handled w l (.done id (.cdnRedirect params hashes))
        ((l.finishSentRequest id).changeCDNParams r.offset r.dcId params hashes)
  | webFile {id : Nat} {r : RequestData} (size : Nat) (bytes : Bytes)
      (hget : l.sentRequests[id]? = some r) (hkind : r.kind = .webPart) :
      Handled w l (.done id (.webFile size bytes))
        ((l.finishSentRequest id).webPartLoaded w r.offset size bytes)
  | cdnFile {id : Nat} {r : RequestData} (bytes : Bytes) (hget : l.sentRequests[id]? = some r)
      (hkind : r.kind = .cdnPart) :
      Handled w l (.done id (.cdnFile bytes))
        ((l.finishSentRequest id).cdnPartLoaded w r.offset bytes)
  | reuploadNeeded {id : Nat} {r : RequestData} (hget : l.sentRequests[id]? = some r)
      (hkind : r.kind = .cdnPart) :
      Handled w l (.done id .reuploadNeeded) ((l.finishSentRequest id).placeSentRequest
        { dcId := l.dcId, offset := r.offset, kind := .reupload })
  | reuploadDone {id : Nat} {r : RequestData} (hashes : List FileHash)
      (hget : l.sentRequests[id]? = some r) (hkind : r.kind = .reupload) :
      Handled w l (.done id (.fileHashes hashes))
        (((l.finishSentRequest id).addCdnHashes r.dcId hashes).makeRequest r.offset)
  | hashesDone {id : Nat} {r : RequestData} (hashes : List FileHash)
      (hget : l.sentRequests[id]? = some r) (hkind : r.kind = .hashes) :
      Handled w l (.done id (.fileHashes hashes))
        ((l.finishSentRequest id).getCdnFileHashesDone w r.dcId hashes)
  | temporary {id : Nat} {r : RequestData} {e : RPCError} (hget : l.sentRequests[id]? = some r)
      (he : e.isDefaultHandledError) : Handled w l (.fail id e) l
  | staleReference {id : Nat} {r : RequestData} {e : RPCError}
      (hget : l.sentRequests[id]? = some r) (hkind : r.kind = .part) :
      Handled w l (.fail id e) (l.awaitReference id r)
  | failed {id : Nat} {r : RequestData} {e : RPCError} (hget : l.sentRequests[id]? = some r)
      (hkind : r.kind.forCdn = false) : Handled w l (.fail id e) l.cancel
  | cdnFailed {id : Nat} {r : RequestData} {e : RPCError} (hget : l.sentRequests[id]? = some r)
      (hkind : r.kind.forCdn) (he : e.isDefaultHandledError = false) (htoken : e.isTokenInvalid = false) :
      Handled w l (.fail id e) (l.forgetHashesRequest id).cancel
  | tokenInvalid {id : Nat} {r : RequestData} {e : RPCError} (hget : l.sentRequests[id]? = some r)
      (hkind : r.kind.forCdn) (he : e.isDefaultHandledError = false) (htoken : e.isTokenInvalid) :
      Handled w l (.fail id e) (((l.forgetHashesRequest id).finishSentRequest id).changeCDNParams
        r.offset r.dcId {} [])
  | refreshed {id : Nat} {r : RequestData} (hget : l.sentRequests[id]? = some r)
      (hkind : r.kind = .refreshing) :
      Handled w l (.refreshed id true) ((l.finishSentRequest id).makeRequest r.offset)
  | notRefreshed {id : Nat} {r : RequestData} (changed : Bool)
      (hget : l.sentRequests[id]? = some r) (hkind : r.kind = .refreshing) :
      Handled w l (.refreshed id changed) l.cancel

theorem handled_fail {id : Nat} {r : RequestData} {e : RPCError}
    (hget : l.sentRequests[id]? = some r) (hkind : r.kind ≠ .refreshing) :
    Handled w l (.fail id e) (l.partFailed id r e) := by
  rw [partFailed]
  split
  · exact .temporary hget ‹_›
  · rename_i he
    rw [Bool.not_eq_true] at he
    have hcdn : r.kind.forCdn → Handled w l (.fail id e) (if e.isTokenInvalid then
        ((l.forgetHashesRequest id).finishSentRequest id).changeCDNParams r.offset r.dcId {} []
        else (l.forgetHashesRequest id).cancel) := by
      intro hcdn
      split
      · exact .tokenInvalid hget hcdn he ‹_›
      · exact .cdnFailed hget hcdn he (Bool.not_eq_true _ ▸ ‹_›)
    cases hk : r.kind with
    | part =>
      dsimp only
      split
      · exact .staleReference hget hk
      · exact .failed hget (by rw [hk]; rfl)
    | webPart => exact .failed hget (by rw [hk]; rfl)
    | refreshing => exact absurd hk hkind
    | cdnPart => exact hcdn (by rw [hk]; rfl)
    | reupload => exact hcdn (by rw [hk]; rfl)
    | hashes => exact hcdn (by rw [hk]; rfl)

theorem handled_done {id : Nat} {r : RequestData} {reply : Reply}
    (hget : l.sentRequests[id]? = some r) (h : (l.finishSentRequest id).done w r reply = some l') :
    Handled w l (.done id reply) l' := by
  cases reply with
  | file bytes =>
    rw [done, Option.ite_none_right_eq_some] at h
    obtain ⟨hkind, heq⟩ := h
    exact Option.some.inj heq ▸ .file bytes hget hkind
  | cdnRedirect params hashes =>
    rw [done, Option.ite_none_right_eq_some] at h
    obtain ⟨hkind, heq⟩ := h
    exact Option.some.inj heq ▸ .cdnRedirect params hashes hget hkind
  | webFile size bytes =>
    rw [done, Option.ite_none_right_eq_some] at h
    obtain ⟨hkind, heq⟩ := h
    exact Option.some.inj heq ▸ .webFile size bytes hget hkind
  | cdnFile bytes =>
    rw [done, Option.ite_none_right_eq_some] at h
    obtain ⟨hkind, heq⟩ := h
    exact Option.some.inj heq ▸ .cdnFile bytes hget hkind
  | reuploadNeeded =>
    rw [done, Option.ite_none_right_eq_some] at h
    obtain ⟨hkind, heq⟩ := h
    exact Option.some.inj heq ▸ .reuploadNeeded hget hkind
  | fileHashes hashes =>
    rw [done] at h
    cases hk : r.kind with
    | reupload =>
      rw [hk] at h
      exact Option.some.inj h ▸ .reuploadDone hashes hget hk
    | hashes =>
      rw [hk] at h
      exact Option.some.inj h ▸ .hashesDone hashes hget hk
    | part => rw [hk] at h; cases h
    | webPart => rw [hk] at h; cases h
    | cdnPart => rw [hk] at h; cases h
    | refreshing => rw [hk] at h; cases h

theorem handle_done {id : Nat} {r : RequestData} {reply : Reply}
    (hget : l.sentRequests[id]? = some r) :
    l.handle w (.done id reply) = (l.finishSentRequest id).done w r reply := by
  rw [handle, hget, Option.bind_some]

theorem handled_of_handle {e : Event} (h : l.handle w e = some l') : Handled w l e l' := by
  cases e with
  | loadPart => exact Option.some.inj h ▸ .loadPart
  | setFileName filename => exact Option.some.inj h ▸ .setFileName filename
  | cancel => exact Option.some.inj h ▸ .cancel
  | done id reply =>
    obtain ⟨r, hget, hdone⟩ := Option.bind_eq_some_iff.mp h
    exact handled_done hget hdone
  | fail id e =>
    obtain ⟨r, hget, hfail⟩ := Option.bind_eq_some_iff.mp h
    rw [Option.ite_none_left_eq_some] at hfail
    exact Option.some.inj hfail.2 ▸ handled_fail hget hfail.1
  | refreshed id changed =>
    obtain ⟨r, hget, hrefresh⟩ := Option.bind_eq_some_iff.mp h
    rw [Option.ite_none_right_eq_some, refreshFileReferenceFrom] at hrefresh
    obtain ⟨hkind, heq⟩ := hrefresh
    rw [← Option.some.inj heq]
    split
    · rename_i hchanged
      rw [hchanged.2]
      exact .refreshed hget hkind
    · exact .notRefreshed changed hget hkind

/-! ### The books after an event -/

theorem Booked.place (h : Booked l) {r : RequestData} (hfin : l.finished = false)
    (hmode : r.kind.forCdn ↔ l.cdn.dcId ≠ 0) (hdc : r.kind ≠ .cdnPart → r.dcId = l.dcId)
    (hhashes : r.kind ≠ .hashes) : Booked (l.placeSentRequest r) := by
  refine ⟨fun id r' hget => ?_, fun id r' hget => ?_, fun id r' hget => ?_, fun id r' hget => ?_,
    Nat.le_succ_of_le h.current, fun hfin' => absurd (hfin'.symm.trans hfin) Bool.noConfusion⟩
  · rcases placeSentRequest_cases hget with ⟨rfl, -⟩ | hget
    · exact ⟨Nat.le_refl _, Nat.succ_pos _⟩
    · exact ⟨Nat.le_succ_of_le (h.ids id r' hget).1, (h.ids id r' hget).2⟩
  · rcases placeSentRequest_cases hget with ⟨-, rfl⟩ | hget
    · exact hmode
    · exact h.mode id r' hget
  · rcases placeSentRequest_cases hget with ⟨-, rfl⟩ | hget
    · exact hdc
    · exact h.dc id r' hget
  · rcases placeSentRequest_cases hget with ⟨-, rfl⟩ | hget
    · exact fun hkind => absurd hkind hhashes
    · exact h.hashes id r' hget

theorem Booked.loadPart (h : Booked l) : Booked l.loadPart := by
  rw [FileLoader.loadPart]
  split
  · exact h
  · split
    · exact h
    · rename_i hfin _
      have hfin' : l.finished = false := Bool.not_eq_true _ ▸ fun hf => hfin (.inl hf)
      have hreq : Booked (l.makeRequest l.nextRequestOffset) := requested_one.booked h hfin'
      exact ⟨hreq.ids, hreq.mode, hreq.dc, hreq.hashes, hreq.current, hreq.finished⟩

theorem Booked.webPartLoaded (h : Booked l) (w : World) (offset size : Nat) (buffer : Bytes) :
    Booked (l.webPartLoaded w offset size buffer) := by
  rw [FileLoader.webPartLoaded]
  split
  · exact Booked.feedPart (l := { l with size })
      ⟨h.ids, h.mode, h.dc, h.hashes, h.current, h.finished⟩ w offset buffer
  · split
    · exact h.cancel
    · exact h.feedPart w offset buffer

theorem Booked.cdnPartLoaded (h : Booked l) (hfin : l.finished = false) (hcdn : l.cdn.dcId ≠ 0)
    (w : World) (offset : Nat) (bytes : Bytes) : Booked (l.cdnPartLoaded w offset bytes) := by
  rw [FileLoader.cdnPartLoaded]
  cases l.checkCdnFileHash w offset (l.decryptPart w offset bytes) with
  | noHash =>
    exact Booked.requestMore (l := l.withUnchecked offset (l.decryptPart w offset bytes))
      ⟨h.ids, h.mode, h.dc, h.hashes, h.current, h.finished⟩ hfin hcdn
  | invalid => exact h.cancel
  | good => exact h.feedPart w offset _

theorem Booked.withoutHashes (h : Booked l) (id : Nat) :
    Booked ((l.forgetHashesRequest id).finishSentRequest id) := by
  by_cases hid : id = l.cdnHashesRequestId
  · rw [forgetHashesRequest, if_pos hid]
    have hl := h.finishSentRequest id
    refine ⟨hl.ids, hl.mode, hl.dc, fun id' r' hget' hkind => ?_, Nat.zero_le _, hl.finished⟩
    have hid' := hl.hashes id' r' hget' hkind
    have hnone : (l.finishSentRequest id).sentRequests[id']? = some r' := hget'
    rw [getElem?_finishSentRequest, if_pos (hid'.trans hid.symm)] at hnone
    cases hnone
  · rw [forgetHashesRequest, if_neg hid]
    exact h.finishSentRequest id

theorem Booked.addCdnHashes (h : Booked l) (dcId : DcId) (hashes : List FileHash) :
    Booked (l.addCdnHashes dcId hashes) :=
  ⟨h.ids, h.mode, h.dc, h.hashes, h.current, h.finished⟩

/-- The loop runs in the cdn mode and leaves the requests alone, until it cancels them. -/
theorem Booked.checkParts (h : Booked l) (hfin : l.finished = false) (hcdn : l.cdn.dcId ≠ 0)
    (w : World) (parts : List (Nat × Bytes)) (some : Bool) :
    Booked (checkParts w parts l some).1 ∧ ((checkParts w parts l some).2 ≠ none →
      (checkParts w parts l some).1.finished = false ∧
        (checkParts w parts l some).1.cdn.dcId ≠ 0) := by
  have hkeeps := @checkParts_keeps w
    (fun _ l => Booked l ∧ l.finished = false ∧ l.cdn.dcId ≠ 0) Booked
    (fun _ _ _ hl _ => hl) (fun _ _ _ hl _ => hl.1.cancel)
    (fun part _ l l₁ taken hl _ hfed _ => by
      have hb := Booked.feedPart (l := l.withoutUnchecked part.1)
        ⟨hl.1.ids, hl.1.mode, hl.1.dc, hl.1.hashes, hl.1.current, hl.1.finished⟩ w part.1 part.2
      rw [hfed] at hb
      exact hb)
    (fun part _ l l₁ hl _ hfed hfin => by
      have hb := Booked.feedPart (l := l.withoutUnchecked part.1)
        ⟨hl.1.ids, hl.1.mode, hl.1.dc, hl.1.hashes, hl.1.current, hl.1.finished⟩ w part.1 part.2
      obtain ⟨l₂, htook, ⟨heq, -⟩ | ⟨heq, -⟩⟩ := feedPart_cases w (l.withoutUnchecked part.1) part.1 part.2
      · rw [hfed] at heq
        cases heq
      · rw [hfed] at hb heq
        obtain ⟨-, rfl⟩ := Prod.mk.inj heq
        refine ⟨hb, hfin, ?_⟩
        rw [htook]
        exact hl.2.2)
    parts l some ⟨h, hfin, hcdn⟩
  cases hres : (FileLoader.checkParts w parts l some).2 with
  | none => exact ⟨hkeeps.1 hres, fun hne => absurd rfl hne⟩
  | some c =>
    have hrun := hkeeps.2 (by simp [hres])
    exact ⟨hrun.1, fun _ => hrun.2⟩

theorem Booked.getCdnFileHashesDone {id : Nat} {r : RequestData} (h : Booked l)
    (hget : l.sentRequests[id]? = some r) (hkind : r.kind = .hashes) (w : World) (dcId : DcId)
    (hashes : List FileHash) :
    Booked ((l.finishSentRequest id).getCdnFileHashesDone w dcId hashes) := by
  have hid := h.hashes id r hget hkind
  have hl := h.withoutHashes id
  rw [forgetHashesRequest, if_pos hid] at hl
  have hloop := (hl.addCdnHashes dcId hashes).checkParts (h.not_finished hget)
    ((h.mode id r hget).mp (by rw [hkind]; rfl)) w l.cdnUncheckedParts.toList false
  rw [FileLoader.getCdnFileHashesDone]
  change Booked (partsChecked (FileLoader.checkParts w l.cdnUncheckedParts.toList
    (({ l with cdnHashesRequestId := 0 }.finishSentRequest id).addCdnHashes dcId hashes) false))
  generalize FileLoader.checkParts w l.cdnUncheckedParts.toList
    (({ l with cdnHashesRequestId := 0 }.finishSentRequest id).addCdnHashes dcId hashes) false =
    result at hloop
  obtain ⟨l₁, _ | _ | _⟩ := result
  · exact hloop.1
  · exact hloop.1.cancel
  · exact hloop.1.requestMore (hloop.2 (by simp)).1 (hloop.2 (by simp)).2

theorem Booked.awaitReference (h : Booked l) {id : Nat} {r : RequestData}
    (hget : l.sentRequests[id]? = some r) (hkind : r.kind = .part) :
    Booked (l.awaitReference id r) := by
  have hnew : ∀ (id' : Nat) (r' : RequestData),
      (l.awaitReference id r).sentRequests[id']? = some r' →
      (id' = id ∧ r' = { r with kind := .refreshing }) ∨ l.sentRequests[id']? = some r' := by
    intro id' r' hget'
    simp only [FileLoader.awaitReference, Std.ExtTreeMap.getElem?_insert,
      Std.LawfulEqCmp.compare_eq_iff_eq] at hget'
    split at hget'
    · rename_i heq
      exact .inl ⟨heq.symm, (Option.some.inj hget').symm⟩
    · exact .inr hget'
  have hmode := h.mode id r hget
  rw [hkind] at hmode
  refine ⟨fun id' r' hget' => ?_, fun id' r' hget' => ?_, fun id' r' hget' => ?_,
    fun id' r' hget' => ?_, h.current,
    fun hfin => absurd (hfin.symm.trans (h.not_finished hget)) Bool.noConfusion⟩
  · rcases hnew id' r' hget' with ⟨rfl, -⟩ | hget'
    · exact h.ids id' r hget
    · exact h.ids id' r' hget'
  · rcases hnew id' r' hget' with ⟨-, rfl⟩ | hget'
    · exact hmode
    · exact h.mode id' r' hget'
  · rcases hnew id' r' hget' with ⟨-, rfl⟩ | hget'
    · exact fun _ => h.dc id r hget (by simp [hkind])
    · exact h.dc id' r' hget'
  · rcases hnew id' r' hget' with ⟨-, rfl⟩ | hget'
    · simp
    · exact h.hashes id' r' hget'

/-- The books agree with the mode of the loader, whatever the event. -/
theorem Booked.handled (h : Booked l) {e : Event} (hstep : Handled w l e l') : Booked l' := by
  cases hstep with
  | loadPart => exact h.loadPart
  | setFileName filename =>
    rw [FileLoader.setFileName]
    split
    · exact h
    · exact ⟨h.ids, h.mode, h.dc, h.hashes, h.current, h.finished⟩
  | cancel => exact h.cancel
  | @file id r bytes hget hkind => exact (h.finishSentRequest id).feedPart w r.offset bytes
  | @cdnRedirect id r params hashes hget hkind =>
    exact (h.finishSentRequest id).changeCDNParams (h.not_finished hget) _ _ _ _
  | @webFile id r size bytes hget hkind =>
    exact (h.finishSentRequest id).webPartLoaded w r.offset size bytes
  | @cdnFile id r bytes hget hkind =>
    exact (h.finishSentRequest id).cdnPartLoaded (h.not_finished hget)
      ((h.mode id r hget).mp (by rw [hkind]; rfl)) w r.offset bytes
  | @reuploadNeeded id r hget hkind =>
    have hcdn : l.cdn.dcId ≠ 0 := (h.mode id r hget).mp (by rw [hkind]; rfl)
    exact (h.finishSentRequest id).place (h.not_finished hget) (iff_of_true rfl hcdn)
      (fun _ => rfl) (by simp)
  | @reuploadDone id r hashes hget hkind =>
    exact requested_one.booked ((h.finishSentRequest id).addCdnHashes r.dcId hashes)
      (h.not_finished hget)
  | @hashesDone id r hashes hget hkind => exact h.getCdnFileHashesDone hget hkind w r.dcId hashes
  | temporary hget he => exact h
  | staleReference hget hkind => exact h.awaitReference hget hkind
  | failed hget hkind => exact h.cancel
  | @cdnFailed id r e hget hkind he htoken =>
    refine booked_of_empty rfl ?_
    rw [forgetHashesRequest]
    split
    · exact Nat.zero_le _
    · exact h.current
  | @tokenInvalid id r e hget hkind he htoken =>
    refine (h.withoutHashes id).changeCDNParams ?_ _ _ _ _
    rw [forgetHashesRequest]
    split
    · exact h.not_finished hget
    · exact h.not_finished hget
  | @refreshed id r hget hkind =>
    exact requested_one.booked (h.finishSentRequest id) (h.not_finished hget)
  | notRefreshed changed hget hkind => exact h.cancel

theorem booked_start (location : Location) (dcId : DcId) (size : Nat)
    (toCache : LoadToCacheSetting) (filename : String) :
    Booked (start location dcId size toCache filename) :=
  booked_of_empty rfl (Nat.le_refl _)

end FileLoader

end TelegramClient.Storage
