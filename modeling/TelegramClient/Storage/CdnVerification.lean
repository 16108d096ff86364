import Mathlib
import TelegramClient.Storage.CdnHashes

/-! What is fed in the cdn mode was checked against a hash of the main datacenter. -/

namespace TelegramClient.Storage.FileLoader

variable {w : World} {l l' : FileLoader} {offset : Nat} {offsets : List Nat}

/-- A hash came for the offset from the datacenter of the file, and it is that of the bytes. -/
def Checked (w : World) (l : FileLoader) (offset : Nat) (bytes : Bytes) : Prop :=
  ∃ h, (l.dcId, h) ∈ l.received ∧ h.offset = offset ∧ h.hash = w.sha256 bytes

/-- The history of the hashes and of the parts fed in the cdn mode. -/
structure Verified (w : World) (l : FileLoader) : Prop where
  known : ∀ (offset : Nat) (h : CdnFileHash), l.cdnFileHashes[offset]? = some h →
    (l.dcId, { offset, limit := h.limit, hash := h.hash }) ∈ l.received
  main : ∀ p ∈ l.received, p.1 = l.dcId
  fed : ∀ part ∈ l.fed, part.cdn → l.Checked w part.offset part.bytes

theorem Verified.congr (h : Verified w l) (hdc : l'.dcId = l.dcId)
    (hhashes : l'.cdnFileHashes = l.cdnFileHashes) (hreceived : l'.received = l.received)
    (hfed : l'.fed = l.fed) : Verified w l' := by
  refine ⟨fun offset h' hget => ?_, fun p hp => ?_, fun part hpart hcdn => ?_⟩
  · rw [hhashes] at hget
    rw [hdc, hreceived]
    exact h.known offset h' hget
  · rw [hreceived] at hp
    exact (h.main p hp).trans hdc.symm
  · rw [hfed] at hpart
    rw [Checked, hdc, hreceived]
    exact h.fed part hpart hcdn

/-- A good check means that the hash of the bytes came for the offset. -/
theorem Verified.checked (h : Verified w l) {buffer : Bytes}
    (hcheck : l.checkCdnFileHash w offset buffer = .good) : l.Checked w offset buffer := by
  rw [checkCdnFileHash] at hcheck
  cases hget : l.cdnFileHashes[offset]? with
  | none =>
    rw [hget] at hcheck
    cases hcheck
  | some known =>
    rw [hget] at hcheck
    dsimp only at hcheck
    split at hcheck
    · rename_i heq
      exact ⟨_, h.known offset known hget, rfl, heq.symm⟩
    · cases hcheck

theorem getElem?_foldl_insertIfNew (hashes : List FileHash)
    (known : Std.ExtTreeMap Nat CdnFileHash) {h : CdnFileHash}
    (hget : (hashes.foldl (fun known h => known.insertIfNew h.offset
      { limit := h.limit, hash := h.hash }) known)[offset]? = some h) :
    known[offset]? = some h ∨ { offset, limit := h.limit, hash := h.hash } ∈ hashes := by
  induction hashes generalizing known with
  | nil => exact .inl hget
  | cons first hashes ih =>
    rcases ih _ hget with hold | hnew
    · rw [Std.ExtTreeMap.getElem?_insertIfNew] at hold
      split at hold
      · rename_i hfirst
        have hoffset := Std.LawfulEqCmp.compare_eq_iff_eq.mp hfirst.1
        right
        rw [← Option.some.inj hold, ← hoffset]
        exact List.mem_cons_self ..
      · exact .inl hold
    · exact .inr (List.mem_cons_of_mem _ hnew)

theorem Verified.addCdnHashes (h : Verified w l) {dcId : DcId} {hashes : List FileHash}
    (hdc : hashes ≠ [] → dcId = l.dcId) : Verified w (l.addCdnHashes dcId hashes) where
  known offset known hget := by
    rcases getElem?_foldl_insertIfNew hashes l.cdnFileHashes hget with hold | hnew
    · exact List.mem_append_left _ (h.known offset known hold)
    · refine List.mem_append_right _ (List.mem_map.mpr ⟨_, hnew, ?_⟩)
      rw [hdc (List.ne_nil_of_mem hnew)]
      rfl
  main p hp := by
    rcases List.mem_append.mp hp with hold | hnew
    · exact h.main p hold
    · obtain ⟨known, hmem, rfl⟩ := List.mem_map.mp hnew
      exact hdc (List.ne_nil_of_mem hmem)
  fed part hpart hcdn := by
    obtain ⟨known, hmem, hknown⟩ := h.fed part hpart hcdn
    exact ⟨known, List.mem_append_left _ hmem, hknown⟩

theorem Verified.cancel (h : Verified w l) : Verified w l.cancel := h.congr rfl rfl rfl rfl

theorem Verified.requested (h : Verified w l) (hreq : Requested l l' offsets) : Verified w l' := by
  refine h.congr ?_ ?_ ?_ ?_
  all_goals rw [hreq.same]

theorem Verified.changeCDNParams (h : Verified w l) {dcId : DcId} {hashes : List FileHash}
    (hdc : hashes ≠ [] → dcId = l.dcId) (offset : Nat) (params : CdnParams) :
    Verified w (l.changeCDNParams offset dcId params hashes) := by
  have hcdn : Verified w (l.withCdn dcId params hashes) :=
    Verified.addCdnHashes (l := { l with cdn := params }) (h.congr rfl rfl rfl rfl) hdc
  rcases changeCDNParams_cases l offset dcId params hashes with ⟨-, heq⟩ | ⟨-, hreq⟩ | ⟨-, hreq⟩
  · rw [heq]
    exact h.cancel
  · refine Verified.requested ?_ hreq
    exact hcdn.congr rfl rfl rfl rfl
  · exact hcdn.requested hreq

theorem Verified.requestMore (h : Verified w l) : Verified w l.requestMoreCdnFileHashes := by
  rcases requestMore_cases l with ⟨heq, -⟩ | ⟨offset, -, -, heq⟩
  · rw [heq]
    exact h
  · rw [heq]
    exact h.congr rfl rfl rfl rfl

theorem Verified.feedPart (h : Verified w l) {buffer : Bytes}
    (hchecked : l.cdn.dcId ≠ 0 → l.Checked w offset buffer) :
    Verified w (l.feedPart w offset buffer).2 := by
  have hpart : ∀ part ∈ l.fed ++ [l.fedPart offset buffer], part.cdn →
      l.Checked w part.offset part.bytes := by
    intro part hmem hcdn
    rcases List.mem_append.mp hmem with hold | hnew
    · exact h.fed part hold hcdn
    · rw [List.mem_singleton.mp hnew] at hcdn ⊢
      exact hchecked (by simpa [fedPart] using hcdn)
  obtain ⟨l₁, htook, ⟨heq, -⟩ | ⟨heq, -⟩⟩ := feedPart_cases w l offset buffer
  · rw [heq, htook]
    exact ⟨h.known, h.main, hpart⟩
  · rw [heq, htook]
    exact ⟨h.known, h.main, hpart⟩

theorem Verified.webPartLoaded (h : Verified w l) (hcdn : l.cdn.dcId = 0) (offset size : Nat)
    (buffer : Bytes) : Verified w (l.webPartLoaded w offset size buffer) := by
  rw [FileLoader.webPartLoaded]
  split
  · exact Verified.feedPart (l := { l with size }) (h.congr rfl rfl rfl rfl) (absurd hcdn ·)
  · split
    · exact h.cancel
    · exact h.feedPart (absurd hcdn ·)

theorem Verified.cdnPartLoaded (h : Verified w l) (bytes : Bytes) :
    Verified w (l.cdnPartLoaded w offset bytes) := by
  rw [FileLoader.cdnPartLoaded]
  cases hcheck : l.checkCdnFileHash w offset (l.decryptPart w offset bytes) with
  | noHash =>
    exact Verified.requestMore (l := l.withUnchecked offset (l.decryptPart w offset bytes))
      (h.congr rfl rfl rfl rfl)
  | invalid => exact h.cancel
  | good => exact h.feedPart fun _ => h.checked hcheck

theorem Verified.checkParts (h : Verified w l) (parts : List (Nat × Bytes)) (some : Bool) :
    Verified w (checkParts w parts l some).1 := by
  have hfeed : ∀ (part : Nat × Bytes) (l l₁ : FileLoader) (taken : Bool), Verified w l →
      l.checkCdnFileHash w part.1 part.2 = .good →
      (l.withoutUnchecked part.1).feedPart w part.1 part.2 = (taken, l₁) → Verified w l₁ := by
    intro part l l₁ taken hl hcheck hfed
    have hl' : Verified w (l.withoutUnchecked part.1) := hl.congr rfl rfl rfl rfl
    have hfeed := hl'.feedPart fun _ => hl.checked hcheck
    rw [hfed] at hfeed
    exact hfeed
  have hkeeps := @checkParts_keeps w (fun _ l => Verified w l) (Verified w)
    (fun _ _ _ hl _ => hl) (fun _ _ _ hl _ => hl.cancel)
    (fun part _ l l₁ taken hl hcheck hfed _ => hfeed part l l₁ taken hl hcheck hfed)
    (fun part _ l l₁ hl hcheck hfed _ => hfeed part l l₁ true hl hcheck hfed) parts l some h
  by_cases hres : (FileLoader.checkParts w parts l some).2 = none
  · exact hkeeps.1 hres
  · exact hkeeps.2 hres

theorem Verified.getCdnFileHashesDone (h : Verified w l) {dcId : DcId} (hdc : dcId = l.dcId)
    (hashes : List FileHash) : Verified w (l.getCdnFileHashesDone w dcId hashes) := by
  have hadd : Verified w ({ l with cdnHashesRequestId := 0 }.addCdnHashes dcId hashes) :=
    Verified.addCdnHashes (l := { l with cdnHashesRequestId := 0 }) (h.congr rfl rfl rfl rfl)
      fun _ => hdc
  have hloop := hadd.checkParts l.cdnUncheckedParts.toList false
  rw [FileLoader.getCdnFileHashesDone]
  change Verified w (partsChecked (FileLoader.checkParts w l.cdnUncheckedParts.toList
    ({ l with cdnHashesRequestId := 0 }.addCdnHashes dcId hashes) false))
  generalize FileLoader.checkParts w l.cdnUncheckedParts.toList
    ({ l with cdnHashesRequestId := 0 }.addCdnHashes dcId hashes) false = result at hloop
  obtain ⟨l₁, _ | _ | _⟩ := result
  · exact hloop
  · exact hloop.cancel
  · exact hloop.requestMore

/-- Whatever the event, only a checked part is fed in the cdn mode. -/
theorem Verified.handled (h : Verified w l) (hb : Booked l) {e : Event}
    (hstep : Handled w l e l') : Verified w l' := by
  cases hstep with
  | loadPart =>
    rw [FileLoader.loadPart]
    split
    · exact h
    · split
      · exact h
      · exact h.congr rfl rfl rfl rfl
  | setFileName filename =>
    rw [FileLoader.setFileName]
    split
    · exact h
    · exact h.congr rfl rfl rfl rfl
  | cancel => exact h.cancel
  | @file id r bytes hget hkind =>
    have hmode := hb.mode id r hget
    rw [hkind] at hmode
    exact Verified.feedPart (l := l.finishSentRequest id) (h.congr rfl rfl rfl rfl)
      fun hcdn => absurd (hmode.mpr hcdn) (by simp [RequestKind.forCdn])
  | @cdnRedirect id r params hashes hget hkind =>
    exact Verified.changeCDNParams (l := l.finishSentRequest id) (h.congr rfl rfl rfl rfl)
      (fun _ => hb.dc id r hget (by simp [hkind])) _ _
  | @webFile id r size bytes hget hkind =>
    have hmode := hb.mode id r hget
    rw [hkind] at hmode
    exact Verified.webPartLoaded (l := l.finishSentRequest id) (h.congr rfl rfl rfl rfl)
      (not_not.mp fun hcdn => absurd (hmode.mpr hcdn) (by simp [RequestKind.forCdn])) _ _ _
  | @cdnFile id r bytes hget hkind =>
    exact Verified.cdnPartLoaded (l := l.finishSentRequest id) (h.congr rfl rfl rfl rfl) bytes
  | reuploadNeeded hget hkind => exact h.congr rfl rfl rfl rfl
  | @reuploadDone id r hashes hget hkind =>
    have hadd : Verified w ((l.finishSentRequest id).addCdnHashes r.dcId hashes) :=
      Verified.addCdnHashes (l := l.finishSentRequest id) (h.congr rfl rfl rfl rfl)
        fun _ => hb.dc id r hget (by simp [hkind])
    exact hadd.requested requested_one
  | @hashesDone id r hashes hget hkind =>
    exact Verified.getCdnFileHashesDone (l := l.finishSentRequest id) (h.congr rfl rfl rfl rfl)
      (hb.dc id r hget (by simp [hkind])) hashes
  | temporary hget he => exact h
  | staleReference hget hkind => exact h.congr rfl rfl rfl rfl
  | failed hget hkind => exact h.cancel
  | @cdnFailed id r e hget hkind he htoken =>
    rw [forgetHashesRequest]
    split
    · exact h.congr rfl rfl rfl rfl
    · exact h.cancel
  | @tokenInvalid id r e hget hkind he htoken =>
    refine Verified.changeCDNParams ?_ (fun hne => absurd rfl hne) _ _
    rw [forgetHashesRequest]
    split
    · exact h.congr rfl rfl rfl rfl
    · exact h.congr rfl rfl rfl rfl
  | @refreshed id r hget hkind =>
    exact Verified.requested (l := l.finishSentRequest id) (h.congr rfl rfl rfl rfl) requested_one
  | notRefreshed changed hget hkind => exact h.cancel

/-! ### The parts that wait for their hashes -/

/-- A part that waited waits still, or was fed in the cdn mode. -/
def Stays (l l' : FileLoader) : Prop :=
  ∀ (offset : Nat) (bytes : Bytes), l.cdnUncheckedParts[offset]? = some bytes →
    l'.cdnUncheckedParts[offset]? = some bytes ∨ { offset, bytes, cdn := true } ∈ l'.fed

theorem stays_of_eq (h : l'.cdnUncheckedParts = l.cdnUncheckedParts) : Stays l l' :=
  fun offset bytes hget => .inl (by rw [h]; exact hget)

theorem Stays.congr {l₀ : FileLoader} (h : Stays l₀ l)
    (hparts : l'.cdnUncheckedParts = l.cdnUncheckedParts) (hfed : l'.fed = l.fed) :
    Stays l₀ l' := by
  intro offset bytes hget
  rw [hparts, hfed]
  exact h offset bytes hget

theorem Stays.requestMore {l₀ : FileLoader} (h : Stays l₀ l) : Stays l₀ l.requestMoreCdnFileHashes := by
  rcases requestMore_cases l with ⟨heq, -⟩ | ⟨offset, -, -, heq⟩
  · rw [heq]
    exact h
  · rw [heq]
    exact h.congr rfl rfl

theorem Stays.feedPart {l₀ : FileLoader} (h : Stays l₀ l) (hcdn : l.cdn.dcId ≠ 0)
    {part : Nat × Bytes} (hpart : l₀.cdnUncheckedParts[part.1]? = some part.2) :
    Stays l₀ ((l.withoutUnchecked part.1).feedPart w part.1 part.2).2 := by
  have hstays : ∀ (offset : Nat) (bytes : Bytes), l₀.cdnUncheckedParts[offset]? = some bytes →
      (l.withoutUnchecked part.1).cdnUncheckedParts[offset]? = some bytes ∨
        { offset, bytes, cdn := true } ∈ l.fed ++ [l.fedPart part.1 part.2] := by
    intro offset bytes hget
    by_cases hoffset : part.1 = offset
    · subst hoffset
      rw [hpart] at hget
      refine .inr (List.mem_append_right _ (List.mem_singleton.mpr ?_))
      simp [fedPart, hcdn, Option.some.inj hget]
    · rcases h offset bytes hget with hold | hfed
      · left
        simpa only [withoutUnchecked, Std.ExtTreeMap.getElem?_erase,
          Std.LawfulEqCmp.compare_eq_iff_eq, if_neg hoffset] using hold
      · exact .inr (List.mem_append_left _ hfed)
  obtain ⟨l₁, htook, ⟨heq, -⟩ | ⟨heq, -⟩⟩ :=
    feedPart_cases w (l.withoutUnchecked part.1) part.1 part.2
  · rw [heq, htook]
    exact hstays
  · rw [heq, htook]
    exact hstays

theorem stays_checkParts {l₀ : FileLoader} (h : Stays l₀ l) (hcdn : l.cdn.dcId ≠ 0)
    (parts : List (Nat × Bytes)) (some : Bool)
    (hparts : ∀ part ∈ parts, l₀.cdnUncheckedParts[part.1]? = .some part.2) :
    Stays l₀ (checkParts w parts l some).1 := by
  have hkeeps := @checkParts_keeps w (fun parts l => Stays l₀ l ∧ l.cdn.dcId ≠ 0 ∧
      ∀ part ∈ parts, l₀.cdnUncheckedParts[part.1]? = .some part.2) (Stays l₀)
    (fun _ _ _ hl _ => ⟨hl.1, hl.2.1, (List.forall_mem_cons.mp hl.2.2).2⟩)
    (fun _ _ _ hl _ => hl.1.congr rfl rfl)
    (fun part _ l l₁ taken hl _ hfed _ => by
      have hfeed := @Stays.feedPart w _ _ hl.1 hl.2.1 part (List.forall_mem_cons.mp hl.2.2).1
      rw [hfed] at hfeed
      exact hfeed)
    (fun part _ l l₁ hl _ hfed _ => by
      have hfeed := @Stays.feedPart w _ _ hl.1 hl.2.1 part (List.forall_mem_cons.mp hl.2.2).1
      refine ⟨by rw [hfed] at hfeed; exact hfeed, ?_, (List.forall_mem_cons.mp hl.2.2).2⟩
      obtain ⟨l₂, htook, ⟨heq, -⟩ | ⟨heq, -⟩⟩ :=
        feedPart_cases w (l.withoutUnchecked part.1) part.1 part.2
      · rw [hfed] at heq
        cases heq
      · rw [hfed] at heq
        rw [(Prod.mk.inj heq).2, htook]
        exact hl.2.1) parts l some ⟨h, hcdn, hparts⟩
  by_cases hres : (FileLoader.checkParts w parts l some).2 = none
  · exact hkeeps.1 hres
  · exact (hkeeps.2 hres).1

theorem stays_getCdnFileHashesDone (hcdn : l.cdn.dcId ≠ 0) (dcId : DcId)
    (hashes : List FileHash) : Stays l (l.getCdnFileHashesDone w dcId hashes) := by
  have hloop := @stays_checkParts w ({ l with cdnHashesRequestId := 0 }.addCdnHashes dcId hashes) l
    (stays_of_eq rfl) hcdn l.cdnUncheckedParts.toList false fun part hpart =>
      Std.ExtTreeMap.mem_toList_iff_getElem?_eq_some.mp hpart
  rw [FileLoader.getCdnFileHashesDone]
  change Stays l (partsChecked (FileLoader.checkParts w l.cdnUncheckedParts.toList
    ({ l with cdnHashesRequestId := 0 }.addCdnHashes dcId hashes) false))
  generalize FileLoader.checkParts w l.cdnUncheckedParts.toList
    ({ l with cdnHashesRequestId := 0 }.addCdnHashes dcId hashes) false = result at hloop
  obtain ⟨l₁, _ | _ | _⟩ := result
  · exact hloop
  · exact hloop.congr rfl rfl
  · exact hloop.requestMore

theorem stays_cdnPartLoaded (bytes : Bytes) : Stays l (l.cdnPartLoaded w offset bytes) := by
  rw [FileLoader.cdnPartLoaded]
  cases l.checkCdnFileHash w offset (l.decryptPart w offset bytes) with
  | noHash =>
    refine Stays.requestMore fun offset' bytes' hget => .inl ?_
    rw [withUnchecked, Std.ExtTreeMap.getElem?_insertIfNew, if_neg]
    · exact hget
    · rintro ⟨hoffset, hnone⟩
      rw [Std.LawfulEqCmp.compare_eq_iff_eq.mp hoffset] at hnone
      exact hnone (Std.ExtTreeMap.mem_iff_isSome_getElem?.mpr (Option.isSome_of_eq_some hget))
  | invalid => exact stays_of_eq rfl
  | good => exact stays_of_eq (feedPart_same w l offset _).2.1

theorem stays_handled (hb : Booked l) {e : Event} (hstep : Handled w l e l') : Stays l l' := by
  cases hstep with
  | loadPart =>
    rw [FileLoader.loadPart]
    split
    · exact stays_of_eq rfl
    · split
      · exact stays_of_eq rfl
      · exact stays_of_eq rfl
  | setFileName filename =>
    rw [FileLoader.setFileName]
    split
    · exact stays_of_eq rfl
    · exact stays_of_eq rfl
  | cancel => exact stays_of_eq rfl
  | @file id r bytes hget hkind =>
    exact stays_of_eq (feedPart_same w (l.finishSentRequest id) r.offset bytes).2.1
  | @cdnRedirect id r params hashes hget hkind =>
    exact stays_of_eq (changeCDNParams_same (l.finishSentRequest id) _ _ _ _).2.1
  | @webFile id r size bytes hget hkind =>
    exact stays_of_eq (webPartLoaded_same w (l.finishSentRequest id) _ _ _).2.1
  | @cdnFile id r bytes hget hkind => exact @stays_cdnPartLoaded w (l.finishSentRequest id) _ bytes
  | reuploadNeeded hget hkind => exact stays_of_eq rfl
  | reuploadDone hashes hget hkind => exact stays_of_eq rfl
  | @hashesDone id r hashes hget hkind =>
    exact @stays_getCdnFileHashesDone w (l.finishSentRequest id)
      ((hb.mode id r hget).mp (by rw [hkind]; rfl)) _ _
  | temporary hget he => exact stays_of_eq rfl
  | staleReference hget hkind => exact stays_of_eq rfl
  | failed hget hkind => exact stays_of_eq rfl
  | @cdnFailed id r e hget hkind he htoken =>
    rw [forgetHashesRequest]
    split
    · exact stays_of_eq rfl
    · exact stays_of_eq rfl
  | @tokenInvalid id r e hget hkind he htoken =>
    refine stays_of_eq ((changeCDNParams_same _ _ _ _ _).2.1.trans ?_)
    rw [forgetHashesRequest]
    split
    · rfl
    · rfl
  | refreshed hget hkind => exact stays_of_eq rfl
  | notRefreshed changed hget hkind => exact stays_of_eq rfl

/-- A part whose hash is not known is not fed: it waits, or another one for its offset does. -/
theorem cdnPartLoaded_unknown (hunknown : l.cdnFileHashes[offset]? = none) (bytes : Bytes) :
    (l.cdnPartLoaded w offset bytes).fed = l.fed ∧
      offset ∈ (l.cdnPartLoaded w offset bytes).cdnUncheckedParts := by
  have hcheck : l.checkCdnFileHash w offset (l.decryptPart w offset bytes) = .noHash := by
    rw [checkCdnFileHash, hunknown]
  rw [cdnPartLoaded, hcheck]
  have hmem : offset ∈ (l.withUnchecked offset (l.decryptPart w offset bytes)).cdnUncheckedParts :=
    Std.ExtTreeMap.mem_insertIfNew_self
  dsimp only
  rcases requestMore_cases (l.withUnchecked offset (l.decryptPart w offset bytes)) with
    ⟨heq, -⟩ | ⟨offset', -, -, heq⟩
  · rw [heq]
    exact ⟨rfl, hmem⟩
  · rw [heq]
    exact ⟨rfl, hmem⟩

/-- What a run feeds in the cdn mode, and what becomes of the parts it may not feed. -/
structure CdnVerified (w : World) (l : FileLoader) : Prop where
  main : ∀ p ∈ l.received, p.1 = l.dcId
  fed : ∀ part ∈ l.fed, part.cdn → l.Checked w part.offset part.bytes
  unchecked : ∀ l', Step w l l' → Stays l l'
  unknown : ∀ (id : Nat) (r : RequestData) (bytes : Bytes), l.sentRequests[id]? = some r →
    r.kind = .cdnPart → l.cdnFileHashes[r.offset]? = none →
    ∃ l', l.handle w (.done id (.cdnFile bytes)) = some l' ∧ l'.fed = l.fed ∧
      r.offset ∈ l'.cdnUncheckedParts

theorem verified_start (location : Location) (dcId : DcId) (size : Nat)
    (toCache : LoadToCacheSetting) (filename : String) :
    Verified w (start location dcId size toCache filename) where
  known offset h hget := by
    rw [start, Std.ExtTreeMap.getElem?_empty] at hget
    cases hget
  main := List.forall_mem_nil _
  fed := List.forall_mem_nil _

/-- In every run, what is fed in the cdn mode was checked. -/
theorem cdnVerified (w : World) (location : Location) (dcId : DcId) (size : Nat)
    (toCache : LoadToCacheSetting) (filename : String)
    (h : Reachable w (start location dcId size toCache filename) l) : CdnVerified w l := by
  have hrun : Booked l ∧ Verified w l := by
    induction h with
    | refl => exact ⟨booked_start location dcId size toCache filename,
        verified_start location dcId size toCache filename⟩
    | tail _ hstep ih =>
      obtain ⟨e, hhandle⟩ := hstep
      have hstep := handled_of_handle hhandle
      exact ⟨ih.1.handled hstep, ih.2.handled ih.1 hstep⟩
  obtain ⟨hb, hv⟩ := hrun
  refine ⟨hv.main, hv.fed, fun l' hstep => ?_, fun id r bytes hget hkind hunknown => ?_⟩
  · obtain ⟨e, hhandle⟩ := hstep
    exact stays_handled hb (handled_of_handle hhandle)
  · refine ⟨(l.finishSentRequest id).cdnPartLoaded w r.offset bytes, ?_,
      @cdnPartLoaded_unknown w (l.finishSentRequest id) _ hunknown bytes⟩
    rw [handle_done hget, done, if_pos hkind]

def abcHash : FileHash := { offset := 0, limit := 5, hash := abcWorld.sha256 [97, 98, 99] }

def abcEvents : List Event :=
  [.loadPart, .done 1 (.cdnRedirect zeroKeyCdn [abcHash]), .done 2 (.cdnFile abcEncrypted)]

theorem run_abcEvents : ∃ l, run abcWorld (start .storage 2 0 .loadToCacheAsWell "") abcEvents = some l ∧
    l.fed = [{ offset := 0, bytes := [97, 98, 99], cdn := true }] ∧ l.received = [(2, abcHash)] := by
  have hrun : (run abcWorld (start .storage 2 0 .loadToCacheAsWell "") abcEvents).any
      (fun l => decide (l.fed = [{ offset := 0, bytes := [97, 98, 99], cdn := true }]) &&
        decide (l.received = [(2, abcHash)])) = true := by
    decide
  obtain ⟨l, hl, hstate⟩ := (Option.any_eq_true _ _).mp hrun
  rw [Bool.and_eq_true, decide_eq_true_iff, decide_eq_true_iff] at hstate
  exact ⟨l, hl, hstate⟩

theorem cdnVerified_abc : ∃ l, l.fed = [{ offset := 0, bytes := [97, 98, 99], cdn := true }] ∧
    CdnVerified abcWorld l := by
  obtain ⟨l, hl, hfed, -⟩ := run_abcEvents
  exact ⟨l, hfed, cdnVerified abcWorld .storage 2 0 .loadToCacheAsWell "" (reachable_of_run hl)⟩

/-- The limit that came with a hash is never looked at. -/
theorem fed_with_other_limit :
    ∃ l, Reachable abcWorld (start .storage 2 0 .loadToCacheAsWell "") l ∧
      ∃ part ∈ l.fed, part.cdn ∧ ∀ p ∈ l.received,
        p.2.limit ≠ part.bytes.length ∧ p.2.limit ≠ kDownloadCdnPartSize := by
  obtain ⟨l, hl, hfed, hreceived⟩ := run_abcEvents
  refine ⟨l, reachable_of_run hl, { offset := 0, bytes := [97, 98, 99], cdn := true }, ?_, rfl, ?_⟩
  · rw [hfed]
    exact List.mem_singleton_self _
  · rw [hreceived]
    intro p hp
    rw [List.mem_singleton.mp hp]
    exact ⟨by decide, by decide⟩

end TelegramClient.Storage.FileLoader
