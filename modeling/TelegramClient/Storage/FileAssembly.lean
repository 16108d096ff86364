import Mathlib
import TelegramClient.Storage.CdnHashes

/-! The parts of a file come in any order: what the loader holds of it, and that it
reports finished when it holds all of it. -/

namespace TelegramClient.Storage.FileLoader

open Assembly

variable {w : World} {l l' : FileLoader} {offset : Nat} {offsets ds owed : List Nat}
  {file buffer : Bytes}

def filePart (file : Bytes) (offset : Nat) : Bytes := partAt kDownloadCdnPartSize file offset

/-- The bytes go to the file and not to the memory. -/
def InFile (l : FileLoader) : Prop := l.filename ≠ "" ∧ l.toCache = .loadToFileOnly

instance : Decidable l.InFile := inferInstanceAs (Decidable (_ ∧ _))

/-- The bytes of the loader, where it keeps them. -/
def contents (l : FileLoader) : Bytes := if l.InFile then l.file else l.data

def fedOffsets (l : FileLoader) : List Nat := l.fed.map FedPart.offset

/-- The bytes of the parts that were fed. -/
def fedBytes (l : FileLoader) : Nat := (l.fed.map fun part => part.bytes.length).sum

/-- The part at the offset was requested. -/
def Asked (l : FileLoader) (offset : Nat) : Prop :=
  kDownloadCdnPartSize ∣ offset ∧ offset < l.nextRequestOffset

/-- Every part that was requested is fed, waits for its hash, is on its way or among the
`owed`; `ds` are the offsets of the parts that were delivered. -/
structure Parts (file : Bytes) (ds owed : List Nat) (l : FileLoader) : Prop where
  size : l.size = 0 ∨ l.size = file.length
  next : kDownloadCdnPartSize ∣ l.nextRequestOffset
  sent : ∀ (id : Nat) (r : RequestData), l.sentRequests[id]? = some r → l.Asked r.offset
  unchecked : ∀ (offset : Nat) (bytes : Bytes), l.cdnUncheckedParts[offset]? = some bytes →
    l.Asked offset ∧ bytes = filePart file offset ∧ offset ∈ ds
  fed : ∀ part ∈ l.fed, l.Asked part.offset ∧ part.bytes = filePart file part.offset ∧
    part.offset ∈ ds ∧ part.offset ∉ l.cdnUncheckedParts
  nodup : l.fedOffsets.Nodup
  asked : ∀ offset ∈ owed, l.Asked offset
  covered : ∀ offset, l.Asked offset → offset ∈ owed ∨ offset ∈ l.fedOffsets ∨
    offset ∈ l.cdnUncheckedParts ∨ ∃ (id : Nat) (r : RequestData),
      l.sentRequests[id]? = some r ∧ r.kind ≠ .hashes ∧ r.offset = offset
  last : l.lastComplete → ∃ offset ∈ l.fedOffsets, file.length < offset + kDownloadCdnPartSize

/-- The bytes that were fed are in their places; the gaps count as skipped. -/
structure Filled (file : Bytes) (l : FileLoader) : Prop where
  opened : (l.finished = false ∨ ¬l.InFile) → (l.fileIsOpen ↔ l.InFile)
  assembled : Assembled kDownloadCdnPartSize file l.fedOffsets l.contents
  skipped : (l.contents.length : Int) = l.fedBytes + l.skippedBytes

structure Downloaded (file : Bytes) (ds owed : List Nat) (l : FileLoader) : Prop where
  parts : Parts file ds owed l
  filled : Filled file l
  cancelled : l.cancelled = false
  complete : l.finished → l.isComplete

/-- The loader was given up, or it holds what it was given. -/
def Sound (file : Bytes) (ds owed : List Nat) (l : FileLoader) : Prop :=
  (l.cancelled ∧ l.finished) ∨ Downloaded file ds owed l

theorem partSize_pos : 0 < kDownloadCdnPartSize := by decide

theorem length_filePart :
    (filePart file offset).length = min kDownloadCdnPartSize (file.length - offset) := length_partAt

theorem filePart_eq_nil (h : filePart file offset = []) : file.length ≤ offset := by
  have hlen := @length_filePart offset file
  rw [h, List.length_nil, kDownloadCdnPartSize] at hlen
  omega

theorem isLast_filePart (h : isLast (filePart file offset)) :
    file.length < offset + kDownloadCdnPartSize := by
  rw [isLast, Bool.or_eq_true, beq_iff_eq, bne_iff_ne] at h
  rcases h with hnil | hmod
  · have hle := filePart_eq_nil hnil
    rw [kDownloadCdnPartSize]
    omega
  · rw [length_filePart] at hmod
    by_contra hge
    have hfull : min kDownloadCdnPartSize (file.length - offset) = kDownloadCdnPartSize :=
      Nat.min_eq_left (by omega)
    rw [hfull] at hmod
    exact hmod rfl

/-! ### Writing -/

theorem writePart_nil : l.writePart w offset [] = some l := if_pos rfl

/-- A part inside is no more skipped, a gap in front of a part is. -/
def skippedAfter (skipped : Int) (length offset : Nat) (buffer : Bytes) : Int :=
  if offset < length then skipped - buffer.length else skipped + (offset - length : Nat)

theorem writeToFile_eq : l.writeToFile w offset buffer = if w.disk l.diskCalls then
    some { l with
      skippedBytes := skippedAfter l.skippedBytes l.file.length offset buffer
      file := place l.file offset buffer 0
      diskCalls := l.diskCalls + 1 }
    else none := by
  have hskipped : (if offset < l.file.length then l.skippedBytes - buffer.length
      else if l.file.length < offset then l.skippedBytes + (offset - l.file.length : Nat)
      else l.skippedBytes) = skippedAfter l.skippedBytes l.file.length offset buffer := by
    rw [skippedAfter]
    split
    · rfl
    · split
      · rfl
      · rw [Nat.sub_eq_zero_of_le (by omega), Nat.cast_zero, Int.add_zero]
  rw [writeToFile, hskipped]

theorem writeToData_eq : l.writeToData offset buffer = { l with
    skippedBytes := skippedAfter l.skippedBytes l.data.length offset buffer
    data := place l.data offset buffer 0 } := by
  have hlen : (grow l.data offset 0).length = max l.data.length offset := length_grow
  rw [writeToData]
  by_cases hle : l.data.length ≤ offset
  · have hend : offset = (grow l.data offset 0).length := by omega
    have hskipped : (if l.data.length < offset then l.skippedBytes + (offset - l.data.length : Nat)
        else l.skippedBytes) = skippedAfter l.skippedBytes l.data.length offset buffer := by
      rw [skippedAfter, if_neg (Nat.not_lt.mpr hle)]
      split
      · rfl
      · rw [Nat.sub_eq_zero_of_le (by omega), Nat.cast_zero, Int.add_zero]
    rw [if_pos hend, hskipped, place_of_le hle]
  · have hinside : ¬offset = (grow l.data offset 0).length := by omega
    have hgrow : grow l.data offset 0 = l.data := grow_of_le (Nat.le_of_not_le hle)
    rw [if_neg hinside, if_neg (fun hlt => hle (Nat.le_of_lt hlt)), skippedAfter,
      if_pos (Nat.lt_of_not_le hle), hgrow]
    exact congrArg (fun data => { l with skippedBytes := l.skippedBytes - buffer.length, data })
      (place_of_ge (Nat.le_of_not_le hle))

/-- The bytes of a part are placed at its offset and the gap in front of it is counted. -/
theorem writePart_contents (hopen : l.fileIsOpen ↔ l.InFile) (hbuffer : buffer ≠ [])
    (h : l.writePart w offset buffer = some l') :
    l'.contents = place l.contents offset buffer 0 ∧
      l'.skippedBytes = skippedAfter l.skippedBytes l.contents.length offset buffer := by
  rw [writePart, if_neg hbuffer] at h
  by_cases hfile : l.InFile
  · have hcontents : l.contents = l.file := if_pos hfile
    rw [if_pos (hopen.mpr hfile), writeToFile_eq, Option.ite_none_right_eq_some] at h
    rw [← Option.some.inj h.2, hcontents]
    exact ⟨if_pos hfile, rfl⟩
  · have hcontents : l.contents = l.data := if_neg hfile
    rw [if_neg fun hopened => hfile (hopen.mp hopened), writeToData_eq] at h
    rw [← Option.some.inj h, hcontents]
    exact ⟨if_neg hfile, rfl⟩

/-! ### Feeding -/

theorem addToHistory_fedOffsets {part : FedPart} :
    (l.addToHistory part).fedOffsets = l.fedOffsets ++ [part.offset] := by
  rw [fedOffsets, addToHistory, List.map_append]
  rfl

theorem addToHistory_fedBytes {part : FedPart} :
    (l.addToHistory part).fedBytes = l.fedBytes + part.bytes.length := by
  rw [fedBytes, addToHistory, List.map_append, List.sum_append]
  rfl

theorem Filled.write (h : Filled file l) (hfin : l.finished = false)
    (haligned : ∀ o ∈ l.fedOffsets, kDownloadCdnPartSize ∣ o)
    (hoffset : kDownloadCdnPartSize ∣ offset) (hnew : offset ∉ l.fedOffsets)
    (hw : (l.addToHistory (l.fedPart offset (filePart file offset))).writePart w offset
      (filePart file offset) = some l') : Filled file l' := by
  have hopen := h.opened (.inl hfin)
  by_cases hnil : filePart file offset = []
  · have hend := filePart_eq_nil hnil
    rw [hnil, writePart_nil] at hw
    rw [← Option.some.inj hw]
    refine ⟨fun _ => hopen, ?_, ?_⟩
    · rw [addToHistory_fedOffsets]
      exact h.assembled.append partSize_pos hoffset hend
    · rw [addToHistory_fedBytes]
      exact h.skipped
  · have hlt : offset < file.length := by
      have hlen := @length_filePart offset file
      have hpos := List.length_pos_iff.mpr hnil
      omega
    have hopen' : (l.addToHistory (l.fedPart offset (filePart file offset))).fileIsOpen ↔
        (l.addToHistory (l.fedPart offset (filePart file offset))).InFile := hopen
    obtain ⟨hcontents, hskipped⟩ := writePart_contents hopen' hnil hw
    obtain ⟨hnone, -⟩ | ⟨l₁, hw', hsame⟩ :=
      writePart_cases w (l.addToHistory (l.fedPart offset (filePart file offset))) offset
        (filePart file offset)
    · rw [hw] at hnone
      cases hnone
    · rw [hw] at hw'
      obtain rfl := Option.some.inj hw'
      have hoffsets : l'.fedOffsets = l.fedOffsets ++ [offset] := by
        rw [hsame]
        exact addToHistory_fedOffsets
      have hbytes : l'.fedBytes = l.fedBytes + (filePart file offset).length := by
        rw [hsame]
        exact addToHistory_fedBytes
      have hplaced : l'.contents = place l.contents offset (filePart file offset) 0 := hcontents
      have hskip : l'.skippedBytes = skippedAfter l.skippedBytes l.contents.length offset
          (filePart file offset) := hskipped
      refine ⟨fun _ => ?_, ?_, ?_⟩
      · rw [hsame]
        exact hopen
      · rw [hplaced, hoffsets]
        exact h.assembled.place partSize_pos haligned hoffset hlt
      · have hold := h.skipped
        have hlen : l'.contents.length =
            max l.contents.length (offset + (filePart file offset).length) := by
          rw [hplaced]
          exact length_place
        rw [hskip, hbytes, skippedAfter]
        by_cases hinside : offset < l.contents.length
        · have hfits : offset + (filePart file offset).length ≤ l.contents.length :=
            h.assembled.fits partSize_pos haligned hoffset hnew hinside
          rw [if_pos hinside]
          omega
        · rw [if_neg hinside]
          omega

theorem Parts.took (h : Parts file ds [offset] l) (hnew : offset ∉ l.fedOffsets)
    (hwaiting : offset ∉ l.cdnUncheckedParts) (hds : offset ∈ ds)
    (htook : Took l l' (l.fedPart offset (filePart file offset)))
    (hlast : l'.lastComplete = (l.lastComplete || isLast (filePart file offset))) :
    Parts file ds [] l' := by
  have hoffsets : l'.fedOffsets = l.fedOffsets ++ [offset] := by
    rw [htook]
    exact addToHistory_fedOffsets
  have hasked := h.asked offset (List.mem_singleton_self _)
  have hcomplete : l'.lastComplete →
      ∃ o ∈ l'.fedOffsets, file.length < o + kDownloadCdnPartSize := by
    intro hl'
    rw [hlast, Bool.or_eq_true] at hl'
    rw [hoffsets]
    rcases hl' with hold | hislast
    · obtain ⟨o, ho, hend⟩ := h.last hold
      exact ⟨o, List.mem_append_left _ ho, hend⟩
    · exact ⟨offset, List.mem_append_right _ (List.mem_singleton_self _), isLast_filePart hislast⟩
  rw [htook] at hcomplete hoffsets ⊢
  refine ⟨h.size, h.next, h.sent, h.unchecked, fun part hpart => ?_, ?_, List.forall_mem_nil _, fun o ho => ?_,
    hcomplete⟩
  · rcases List.mem_append.mp hpart with hold | hpart
    · exact h.fed part hold
    · rw [List.mem_singleton.mp hpart]
      exact ⟨hasked, rfl, hds, hwaiting⟩
  · rw [hoffsets]
    exact List.nodup_append.mpr ⟨h.nodup, List.nodup_singleton _, fun a ha b hb =>
      fun heq => hnew (List.mem_singleton.mp hb ▸ heq ▸ ha)⟩
  · rw [hoffsets]
    rcases h.covered o ho with howed | hfed | hrest
    · exact .inr (.inl (List.mem_append_right _ howed))
    · exact .inr (.inl (List.mem_append_left _ hfed))
    · exact .inr (.inr hrest)

theorem finish_contents (h : l.finish w = (true, l')) : l' = { l with
    file := l'.file
    diskCalls := l'.diskCalls
    finished := true
    fileIsOpen := false } ∧ l'.contents = l.contents := by
  rcases finish_cases w l with heq | ⟨l₁, heq, hsame⟩
  · rw [h] at heq
    cases heq
  · rw [h] at heq
    obtain rfl := (Prod.mk.inj heq).2
    refine ⟨hsame, ?_⟩
    by_cases hfile : l.InFile
    · have hsave : l.saveData w = some l := by
        refine if_neg fun hcache => ?_
        rw [hfile.2] at hcache
        cases hcache.2
      rw [finish, hsave] at h
      rw [← (Prod.mk.inj h).2]
      rfl
    · have hdata : l'.contents = l'.data := by
        rw [hsame]
        exact if_neg hfile
      rw [hdata, hsame, contents, if_neg hfile]

theorem Downloaded.finish (h : Downloaded file ds [] l) (hcomplete : l.isComplete)
    (hfinish : l.finish w = (true, l')) : Downloaded file ds [] l' := by
  obtain ⟨hsame, hcontents⟩ := finish_contents hfinish
  have hassembled := h.filled.assembled
  have hskipped := h.filled.skipped
  rw [← hcontents] at hassembled hskipped
  rw [hsame] at hassembled hskipped ⊢
  refine ⟨⟨h.parts.size, h.parts.next, h.parts.sent, h.parts.unchecked, h.parts.fed, h.parts.nodup,
    h.parts.asked, h.parts.covered, h.parts.last⟩, ⟨fun hor => ?_, hassembled, hskipped⟩,
    h.cancelled, fun _ => hcomplete⟩
  have hfile : ¬l.InFile := hor.resolve_left (by simp)
  exact iff_of_false Bool.false_ne_true hfile

/-- A part that was owed is fed: the loader is given up, or it holds the part. -/
theorem Downloaded.feedPart (h : Downloaded file ds [offset] l) (hfin : l.finished = false)
    (hnew : offset ∉ l.fedOffsets) (hwaiting : offset ∉ l.cdnUncheckedParts) (hds : offset ∈ ds)
    {taken : Bool} (hfed : l.feedPart w offset (filePart file offset) = (taken, l')) :
    (taken = false ∧ l'.cancelled ∧ l'.finished) ∨ taken = true ∧ Downloaded file ds [] l' := by
  have haligned : ∀ o ∈ l.fedOffsets, kDownloadCdnPartSize ∣ o := by
    intro o ho
    obtain ⟨part, hpart, rfl⟩ := List.mem_map.mp ho
    exact (h.parts.fed part hpart).1.1
  have hasked := h.parts.asked offset (List.mem_singleton_self _)
  rw [FileLoader.feedPart] at hfed
  cases hw : (l.addToHistory (l.fedPart offset (filePart file offset))).writePart w offset
      (filePart file offset) with
  | none =>
    rw [hw] at hfed
    obtain ⟨rfl, rfl⟩ := Prod.mk.inj hfed
    exact .inl ⟨rfl, rfl, rfl⟩
  | some l₁ =>
    rw [hw] at hfed
    have hfilled := h.filled.write hfin haligned hasked.1 hnew hw
    obtain ⟨hnone, -⟩ | ⟨l₂, hw', hsame⟩ :=
      writePart_cases w (l.addToHistory (l.fedPart offset (filePart file offset))) offset
        (filePart file offset)
    · rw [hw] at hnone
      cases hnone
    · rw [hw] at hw'
      obtain rfl := Option.some.inj hw'
      have htook : Took l { l₁ with lastComplete := l₁.lastComplete || isLast (filePart file offset) }
          (l.fedPart offset (filePart file offset)) := by
        rw [Took, hsame]
        rfl
      have hparts := h.parts.took hnew hwaiting hds htook (by rw [hsame]; rfl)
      have hfin₁ : l₁.finished = false := by
        rw [hsame]
        exact hfin
      have hcancelled : l₁.cancelled = false := by
        rw [hsame]
        exact h.cancelled
      have hdownloaded : Downloaded file ds []
          { l₁ with lastComplete := l₁.lastComplete || isLast (filePart file offset) } :=
        ⟨hparts, ⟨hfilled.opened, hfilled.assembled, hfilled.skipped⟩, hcancelled,
          fun hf => absurd (hf.symm.trans hfin₁) Bool.noConfusion⟩
      simp only [partWritten] at hfed
      split at hfed
      · rename_i hcomplete
        cases htaken : taken with
        | true =>
          rw [htaken] at hfed
          exact .inr ⟨rfl, hdownloaded.finish hcomplete hfed⟩
        | false =>
          rcases finish_cases w { l₁ with
            lastComplete := l₁.lastComplete || isLast (filePart file offset) } with
            heq | ⟨l₂, heq, -⟩
          · rw [hfed] at heq
            rw [(Prod.mk.inj heq).2]
            exact .inl ⟨rfl, rfl, rfl⟩
          · rw [hfed, htaken] at heq
            cases heq
      · obtain ⟨rfl, rfl⟩ := Prod.mk.inj hfed
        exact .inr ⟨rfl, hdownloaded⟩

/-! ### The other operations -/

theorem Downloaded.congr (h : Downloaded file ds owed l) (hsame : l' = { l with
    cdn := l'.cdn
    cdnFileHashes := l'.cdnFileHashes
    cdnHashesRequestId := l'.cdnHashesRequestId
    received := l'.received }) : Downloaded file ds owed l' := by
  rw [hsame]
  exact ⟨⟨h.parts.size, h.parts.next, h.parts.sent, h.parts.unchecked, h.parts.fed, h.parts.nodup,
    h.parts.asked, h.parts.covered, h.parts.last⟩,
    ⟨h.filled.opened, h.filled.assembled, h.filled.skipped⟩, h.cancelled, h.complete⟩

theorem Downloaded.mono (h : Downloaded file ds owed l) {ds' : List Nat} (hsub : ds ⊆ ds') :
    Downloaded file ds' owed l where
  parts := { h.parts with
    unchecked := fun o bytes hget =>
      have hold := h.parts.unchecked o bytes hget
      ⟨hold.1, hold.2.1, hsub hold.2.2⟩
    fed := fun part hpart =>
      have hold := h.parts.fed part hpart
      ⟨hold.1, hold.2.1, hsub hold.2.2.1, hold.2.2.2⟩ }
  filled := h.filled
  cancelled := h.cancelled
  complete := h.complete

theorem Downloaded.requested (h : Downloaded file ds owed l) (hreq : Requested l l' offsets)
    (hb : Booked l) (hfin : l.finished = false) (hasked : ∀ o ∈ offsets, l.Asked o)
    (howed : owed ⊆ offsets) : Downloaded file ds [] l' := by
  have hsent : ∀ (id : Nat) (r : RequestData), l'.sentRequests[id]? = some r → l.Asked r.offset := by
    intro id r hget
    rcases hreq.new id r hget with hold | ⟨-, o, ho, rfl⟩
    · exact h.parts.sent id r hold
    · rw [prepareRequest_offset]
      exact hasked o ho
  have hcovered : ∀ o, l.Asked o → o ∈ ([] : List Nat) ∨ o ∈ l.fedOffsets ∨
      o ∈ l.cdnUncheckedParts ∨ ∃ (id : Nat) (r : RequestData),
        l'.sentRequests[id]? = some r ∧ r.kind ≠ .hashes ∧ r.offset = o := by
    intro o ho
    rcases h.parts.covered o ho with howes | hfed | hwaits | ⟨id, r, hget, hkind, hoffset⟩
    · obtain ⟨id, -, -, hget⟩ := hreq.each o (howed howes)
      exact .inr (.inr (.inr ⟨id, _, hget, prepareRequest_ne_hashes, prepareRequest_offset⟩))
    · exact .inr (.inl hfed)
    · exact .inr (.inr (.inl hwaits))
    · exact .inr (.inr (.inr
        ⟨id, r, (hreq.kept id (hb.ids id r hget).1).trans hget, hkind, hoffset⟩))
  rw [hreq.same]
  exact ⟨⟨h.parts.size, h.parts.next, hsent, h.parts.unchecked, h.parts.fed, h.parts.nodup,
    List.forall_mem_nil _, hcovered, h.parts.last⟩, ⟨h.filled.opened, h.filled.assembled, h.filled.skipped⟩, h.cancelled,
    fun hf => absurd (hf.symm.trans hfin) Bool.noConfusion⟩

theorem Downloaded.loadPart (h : Downloaded file ds [] l) (hb : Booked l) :
    Downloaded file ds [] l.loadPart := by
  rw [FileLoader.loadPart]
  split
  · exact h
  · split
    · exact h
    · rename_i hfin _
      have hfin' : l.finished = false := Bool.not_eq_true _ ▸ fun hf => hfin (.inl hf)
      have hmore : ∀ o, l.Asked o →
          kDownloadCdnPartSize ∣ o ∧ o < l.nextRequestOffset + kDownloadCdnPartSize :=
        fun o ho => ⟨ho.1, Nat.lt_add_right _ ho.2⟩
      have hreq : Requested l (l.makeRequest l.nextRequestOffset) [l.nextRequestOffset] :=
        requested_one
      obtain ⟨id, -, -, hnext⟩ := hreq.each _ (List.mem_singleton_self _)
      refine ⟨⟨h.parts.size, Nat.dvd_add h.parts.next (Nat.dvd_refl _), fun id r hget => ?_,
        fun o bytes hget => ?_, fun part hpart => ?_, h.parts.nodup, List.forall_mem_nil _, fun o ho => ?_,
        h.parts.last⟩, ⟨h.filled.opened, h.filled.assembled, h.filled.skipped⟩, h.cancelled,
        fun hf => absurd (hf.symm.trans hfin') Bool.noConfusion⟩
      · rcases hreq.new id r hget with hold | ⟨-, o, ho, rfl⟩
        · exact hmore _ (h.parts.sent id r hold)
        · rw [prepareRequest_offset, List.mem_singleton.mp ho]
          exact ⟨h.parts.next, Nat.lt_add_of_pos_right partSize_pos⟩
      · have hold := h.parts.unchecked o bytes hget
        exact ⟨hmore o hold.1, hold.2⟩
      · have hold := h.parts.fed part hpart
        exact ⟨hmore _ hold.1, hold.2⟩
      · by_cases hlt : o < l.nextRequestOffset
        · rcases h.parts.covered o ⟨ho.1, hlt⟩ with hnil | hfed | hwaits |
            ⟨id, r, hget, hkind, hoffset⟩
          · cases hnil
          · exact .inr (.inl hfed)
          · exact .inr (.inr (.inl hwaits))
          · exact .inr (.inr (.inr
              ⟨id, r, (hreq.kept id (hb.ids id r hget).1).trans hget, hkind, hoffset⟩))
        · have heq : o = l.nextRequestOffset := by
            obtain ⟨a, ha⟩ := ho.1
            obtain ⟨b, hb'⟩ := h.parts.next
            have hlt' := ho.2
            simp only [kDownloadCdnPartSize] at ha hb' hlt'
            omega
          exact .inr (.inr (.inr
            ⟨id, _, hnext, prepareRequest_ne_hashes, heq ▸ prepareRequest_offset⟩))

/-- A request that is answered owes its part, unless it was for hashes. -/
theorem Downloaded.finishSentRequest (h : Downloaded file ds [] l) (hfin : l.finished = false)
    {id : Nat} {r : RequestData} (hget : l.sentRequests[id]? = some r)
    (howed : r.kind = .hashes ∨ owed = [r.offset]) (hasked : ∀ o ∈ owed, l.Asked o) :
    Downloaded file ds owed (l.finishSentRequest id) where
  parts := {
    size := h.parts.size
    next := h.parts.next
    sent := fun id' r' hget' => by
      rw [getElem?_finishSentRequest] at hget'
      split at hget'
      · cases hget'
      · exact h.parts.sent id' r' hget'
    unchecked := h.parts.unchecked
    fed := h.parts.fed
    nodup := h.parts.nodup
    asked := hasked
    covered := fun o ho => by
      rcases h.parts.covered o ho with hnil | hfed | hwaits | ⟨id', r', hget', hkind, hoffset⟩
      · cases hnil
      · exact .inr (.inl hfed)
      · exact .inr (.inr (.inl hwaits))
      · by_cases hid : id' = id
        · rw [hid, hget] at hget'
          obtain rfl := Option.some.inj hget'
          rw [howed.resolve_left hkind, ← hoffset]
          exact .inl (List.mem_singleton_self _)
        · refine .inr (.inr (.inr ⟨id', r', ?_, hkind, hoffset⟩))
          rw [getElem?_finishSentRequest, if_neg hid]
          exact hget'
    last := h.parts.last }
  filled := ⟨h.filled.opened, h.filled.assembled, h.filled.skipped⟩
  cancelled := h.cancelled
  complete := fun hf => absurd (hf.symm.trans hfin) Bool.noConfusion

theorem Downloaded.changeCDNParams (h : Downloaded file ds [offset] l) (hb : Booked l)
    (hfin : l.finished = false) (dcId : DcId) (params : CdnParams) (hashes : List FileHash) :
    Sound file ds [] (l.changeCDNParams offset dcId params hashes) := by
  have hcdn : Downloaded file ds [offset] (l.withCdn dcId params hashes) := h.congr rfl
  rcases changeCDNParams_cases l offset dcId params hashes with
    ⟨-, heq⟩ | ⟨-, hreq⟩ | ⟨hsame, hreq⟩
  · rw [heq]
    exact .inl ⟨rfl, rfl⟩
  · have hasked : ∀ o ∈ l.sentOffsets ++ [offset], l.Asked o := by
      intro o ho
      rcases List.mem_append.mp ho with hsent | hnew
      · obtain ⟨p, hp, rfl⟩ := List.mem_map.mp hsent
        exact h.parts.sent p.1 p.2 (Std.ExtTreeMap.mem_toList_iff_getElem?_eq_some.mp hp)
      · exact h.parts.asked o hnew
    -- without the requests, their offsets are owed as well
    have hempty : Downloaded file ds (l.sentOffsets ++ [offset])
        { l.withCdn dcId params hashes with sentRequests := ∅ } := by
      refine ⟨⟨h.parts.size, h.parts.next, fun id r hget => ?_, h.parts.unchecked, h.parts.fed,
        h.parts.nodup, hasked, fun o ho => ?_, h.parts.last⟩,
        ⟨h.filled.opened, h.filled.assembled, h.filled.skipped⟩, h.cancelled,
        fun hf => absurd (hf.symm.trans hfin) Bool.noConfusion⟩
      · rw [Std.ExtTreeMap.getElem?_empty] at hget
        cases hget
      · rcases h.parts.covered o ho with howed | hfed | hwaits | ⟨id, r, hget, -, hoffset⟩
        · exact .inl (List.mem_append_right _ howed)
        · exact .inr (.inl hfed)
        · exact .inr (.inr (.inl hwaits))
        · refine .inl (List.mem_append_left _ (List.mem_map.mpr ⟨(id, r), ?_, hoffset⟩))
          exact Std.ExtTreeMap.mem_toList_iff_getElem?_eq_some.mpr hget
    exact .inr (hempty.requested hreq (booked_of_empty rfl hb.current) hfin hasked
      (List.Subset.refl _))
  · refine .inr (hcdn.requested hreq ?_ hfin h.parts.asked (List.Subset.refl _))
    subst hsame
    exact ⟨hb.ids, hb.mode, hb.dc, hb.hashes, hb.current, hb.finished⟩

theorem Downloaded.requestMore (h : Downloaded file ds [] l) (hb : Booked l)
    (hfin : l.finished = false) : Downloaded file ds [] l.requestMoreCdnFileHashes := by
  rcases requestMore_cases l with ⟨heq, -⟩ | ⟨offset, -, hmem, heq⟩
  · rw [heq]
    exact h
  · rw [heq]
    obtain ⟨bytes, hbytes⟩ := Option.isSome_iff_exists.mp
      (Std.ExtTreeMap.mem_iff_isSome_getElem?.mp hmem)
    refine ⟨⟨h.parts.size, h.parts.next, fun id r hget => ?_, h.parts.unchecked, h.parts.fed,
      h.parts.nodup, List.forall_mem_nil _, fun o ho => ?_, h.parts.last⟩,
      ⟨h.filled.opened, h.filled.assembled, h.filled.skipped⟩, h.cancelled,
      fun hf => absurd (hf.symm.trans hfin) Bool.noConfusion⟩
    · rcases placeSentRequest_cases hget with ⟨-, rfl⟩ | hold
      · exact (h.parts.unchecked offset bytes hbytes).1
      · exact h.parts.sent id r hold
    · rcases h.parts.covered o ho with hnil | hfed | hwaits | ⟨id, r, hget, hkind, hoffset⟩
      · cases hnil
      · exact .inr (.inl hfed)
      · exact .inr (.inr (.inl hwaits))
      · refine .inr (.inr (.inr ⟨id, r, ?_, hkind, hoffset⟩))
        have hid := (hb.ids id r hget).1
        exact (getElem?_placeSentRequest _ _).trans ((if_neg (by omega)).trans hget)

theorem Downloaded.place (h : Downloaded file ds [offset] l) (hb : Booked l)
    (hfin : l.finished = false) {r : RequestData} (hkind : r.kind ≠ .hashes)
    (hoffset : r.offset = offset) : Downloaded file ds [] (l.placeSentRequest r) where
  parts := {
    size := h.parts.size
    next := h.parts.next
    sent := fun id r' hget => by
      rcases placeSentRequest_cases hget with ⟨-, rfl⟩ | hold
      · exact h.parts.asked _ (hoffset ▸ List.mem_singleton_self _)
      · exact h.parts.sent id r' hold
    unchecked := h.parts.unchecked
    fed := h.parts.fed
    nodup := h.parts.nodup
    asked := List.forall_mem_nil _
    covered := fun o ho => by
      rcases h.parts.covered o ho with howed | hfed | hwaits | ⟨id, r', hget, hkind', hoffset'⟩
      · refine .inr (.inr (.inr ⟨l.lastRequestId + 1, r, ?_, hkind, ?_⟩))
        · rw [getElem?_placeSentRequest, if_pos rfl]
        · rw [hoffset, List.mem_singleton.mp howed]
      · exact .inr (.inl hfed)
      · exact .inr (.inr (.inl hwaits))
      · refine .inr (.inr (.inr ⟨id, r', ?_, hkind', hoffset'⟩))
        have hid := (hb.ids id r' hget).1
        rw [getElem?_placeSentRequest, if_neg (by omega)]
        exact hget
    last := h.parts.last }
  filled := ⟨h.filled.opened, h.filled.assembled, h.filled.skipped⟩
  cancelled := h.cancelled
  complete := fun hf => absurd (hf.symm.trans hfin) Bool.noConfusion

/-- A part that is owed and was not delivered before is nowhere yet. -/
theorem Downloaded.fresh (h : Downloaded file ds owed l) (hnew : offset ∉ ds) :
    offset ∉ l.fedOffsets ∧ offset ∉ l.cdnUncheckedParts := by
  refine ⟨fun hmem => ?_, fun hmem => ?_⟩
  · obtain ⟨part, hpart, rfl⟩ := List.mem_map.mp hmem
    exact hnew (h.parts.fed part hpart).2.2.1
  · obtain ⟨bytes, hbytes⟩ := Option.isSome_iff_exists.mp
      (Std.ExtTreeMap.mem_iff_isSome_getElem?.mp hmem)
    exact hnew (h.parts.unchecked offset bytes hbytes).2.2

theorem Downloaded.partLoaded (h : Downloaded file ds [offset] l) (hfin : l.finished = false)
    (hnew : offset ∉ ds) :
    Sound file (ds ++ [offset]) [] (l.partLoaded w offset (filePart file offset)) := by
  obtain ⟨hfed, hwaits⟩ := h.fresh hnew
  have hmono := h.mono (List.subset_append_left ds [offset])
  have hds : offset ∈ ds ++ [offset] := List.mem_append_right _ (List.mem_singleton_self _)
  rcases hmono.feedPart hfin hfed hwaits hds (Prod.eta (l.feedPart w offset _)).symm with
    ⟨-, hgone⟩ | ⟨-, hdone⟩
  · exact .inl hgone
  · exact .inr hdone

theorem Downloaded.webPartLoaded (h : Downloaded file ds [offset] l) (hfin : l.finished = false)
    (hnew : offset ∉ ds) :
    Sound file (ds ++ [offset]) []
      (l.webPartLoaded w offset file.length (filePart file offset)) := by
  rw [FileLoader.webPartLoaded]
  split
  · have hsize : Downloaded file ds [offset] { l with size := file.length } :=
      ⟨⟨.inr rfl, h.parts.next, h.parts.sent, h.parts.unchecked, h.parts.fed, h.parts.nodup,
        h.parts.asked, h.parts.covered, h.parts.last⟩,
        ⟨h.filled.opened, h.filled.assembled, h.filled.skipped⟩, h.cancelled,
        fun hf => absurd (hf.symm.trans hfin) Bool.noConfusion⟩
    exact hsize.partLoaded hfin hnew
  · split
    · exact .inl ⟨rfl, rfl⟩
    · exact h.partLoaded hfin hnew

theorem Downloaded.withUnchecked (h : Downloaded file ds [offset] l) (hfin : l.finished = false)
    (hnew : offset ∉ ds) :
    Downloaded file (ds ++ [offset]) [] (l.withUnchecked offset (filePart file offset)) := by
  obtain ⟨hfed, hwaits⟩ := h.fresh hnew
  have hasked := h.parts.asked offset (List.mem_singleton_self _)
  refine ⟨⟨h.parts.size, h.parts.next, h.parts.sent, fun o bytes hget => ?_, fun part hpart => ?_,
    h.parts.nodup, List.forall_mem_nil _, fun o ho => ?_, h.parts.last⟩,
    ⟨h.filled.opened, h.filled.assembled, h.filled.skipped⟩, h.cancelled,
    fun hf => absurd (hf.symm.trans hfin) Bool.noConfusion⟩
  · simp only [FileLoader.withUnchecked, Std.ExtTreeMap.getElem?_insertIfNew,
      Std.LawfulEqCmp.compare_eq_iff_eq] at hget
    split at hget
    · rename_i heq
      obtain ⟨rfl, -⟩ := heq
      exact ⟨hasked, (Option.some.inj hget).symm,
        List.mem_append_right _ (List.mem_singleton_self _)⟩
    · have hold := h.parts.unchecked o bytes hget
      exact ⟨hold.1, hold.2.1, List.mem_append_left _ hold.2.2⟩
  · have hold := h.parts.fed part hpart
    refine ⟨hold.1, hold.2.1, List.mem_append_left _ hold.2.2.1, fun hmem => ?_⟩
    rcases Std.ExtTreeMap.mem_insertIfNew.mp hmem with heq | hmem
    · rw [← Std.LawfulEqCmp.compare_eq_iff_eq.mp heq] at hold
      exact hnew hold.2.2.1
    · exact hold.2.2.2 hmem
  · rcases h.parts.covered o ho with howed | hfed' | hwaits' | hsent
    · rw [List.mem_singleton.mp howed]
      exact .inr (.inr (.inl Std.ExtTreeMap.mem_insertIfNew_self))
    · exact .inr (.inl hfed')
    · exact .inr (.inr (.inl (Std.ExtTreeMap.mem_insertIfNew.mpr (.inr hwaits'))))
    · exact .inr (.inr (.inr hsent))

theorem Downloaded.cdnPartLoaded (h : Downloaded file ds [offset] l) (hb : Booked l)
    (hfin : l.finished = false) (hnew : offset ∉ ds) {bytes : Bytes}
    (hbytes : l.decryptPart w offset bytes = filePart file offset) :
    Sound file (ds ++ [offset]) [] (l.cdnPartLoaded w offset bytes) := by
  rw [FileLoader.cdnPartLoaded, hbytes]
  cases l.checkCdnFileHash w offset (filePart file offset) with
  | noHash =>
    exact .inr ((h.withUnchecked hfin hnew).requestMore
      ⟨hb.ids, hb.mode, hb.dc, hb.hashes, hb.current, hb.finished⟩ hfin)
  | invalid => exact .inl ⟨rfl, rfl⟩
  | good => exact h.partLoaded hfin hnew

theorem Downloaded.withoutUnchecked (h : Downloaded file ds [] l) (hfin : l.finished = false)
    {bytes : Bytes} (hget : l.cdnUncheckedParts[offset]? = some bytes) :
    Downloaded file ds [offset] (l.withoutUnchecked offset) := by
  have hasked := (h.parts.unchecked offset bytes hget).1
  refine ⟨⟨h.parts.size, h.parts.next, h.parts.sent, fun o bytes' hget' => ?_,
    fun part hpart => ?_, h.parts.nodup, fun o ho => List.mem_singleton.mp ho ▸ hasked,
    fun o ho => ?_, h.parts.last⟩,
    ⟨h.filled.opened, h.filled.assembled, h.filled.skipped⟩, h.cancelled,
    fun hf => absurd (hf.symm.trans hfin) Bool.noConfusion⟩
  · simp only [FileLoader.withoutUnchecked, Std.ExtTreeMap.getElem?_erase] at hget'
    split at hget'
    · cases hget'
    · exact h.parts.unchecked o bytes' hget'
  · have hold := h.parts.fed part hpart
    exact ⟨hold.1, hold.2.1, hold.2.2.1, fun hmem =>
      hold.2.2.2 (Std.ExtTreeMap.mem_of_mem_erase hmem)⟩
  · by_cases heq : o = offset
    · exact .inl (List.mem_singleton.mpr heq)
    · rcases h.parts.covered o ho with hnil | hfed | hwaits | hsent
      · cases hnil
      · exact .inr (.inl hfed)
      · refine .inr (.inr (.inl (Std.ExtTreeMap.mem_erase.mpr ⟨fun hcmp => ?_, hwaits⟩)))
        exact heq (Std.LawfulEqCmp.compare_eq_iff_eq.mp hcmp).symm
      · exact .inr (.inr (.inr hsent))

theorem Downloaded.checkPart (h : Downloaded file ds [] l) (hfin : l.finished = false)
    {part : Nat × Bytes} (hget : l.cdnUncheckedParts[part.1]? = some part.2) {taken : Bool}
    (hfed : (l.withoutUnchecked part.1).feedPart w part.1 part.2 = (taken, l')) :
    (taken = false ∧ l'.cancelled ∧ l'.finished) ∨ taken = true ∧ Downloaded file ds [] l' := by
  obtain ⟨-, hbytes, hds⟩ := h.parts.unchecked part.1 part.2 hget
  have hmem : part.1 ∈ l.cdnUncheckedParts :=
    Std.ExtTreeMap.mem_iff_isSome_getElem?.mpr (Option.isSome_of_eq_some hget)
  rw [hbytes] at hfed
  refine (h.withoutUnchecked hfin hget).feedPart hfin (fun hmem' => ?_) (fun hmem' => ?_) hds hfed
  · obtain ⟨fed, hfed', hoffset⟩ := List.mem_map.mp hmem'
    exact (h.parts.fed fed hfed').2.2.2 (hoffset ▸ hmem)
  · exact (Std.ExtTreeMap.mem_erase.mp hmem').1 (Std.LawfulEqCmp.compare_eq_iff_eq.mpr rfl)

theorem Downloaded.checkParts (h : Downloaded file ds [] l) (hfin : l.finished = false)
    (parts : List (Nat × Bytes)) (some : Bool)
    (hparts : ∀ part ∈ parts, l.cdnUncheckedParts[part.1]? = .some part.2)
    (hdistinct : parts.Pairwise fun p q => p.1 ≠ q.1) :
    ((checkParts w parts l some).2 = none → Sound file ds [] (checkParts w parts l some).1) ∧
      ((checkParts w parts l some).2 ≠ none →
        Downloaded file ds [] (checkParts w parts l some).1) := by
  have hkeeps := @checkParts_keeps w (fun parts l => Downloaded file ds [] l ∧ l.finished = false ∧
      (∀ part ∈ parts, l.cdnUncheckedParts[part.1]? = .some part.2) ∧
      parts.Pairwise fun (p q : Nat × Bytes) => p.1 ≠ q.1) (Sound file ds [])
    (fun part parts l hl _ => by
      obtain ⟨hd, hfin, hparts, hdistinct⟩ := hl
      exact ⟨hd, hfin, (List.forall_mem_cons.mp hparts).2, (List.pairwise_cons.mp hdistinct).2⟩)
    (fun part parts l hl _ => .inl ⟨rfl, rfl⟩)
    (fun part parts l l₁ taken hl _ hfed _ => by
      rcases hl.1.checkPart hl.2.1 (List.forall_mem_cons.mp hl.2.2.1).1 hfed with
        ⟨-, hgone⟩ | ⟨-, hdone⟩
      · exact .inl hgone
      · exact .inr hdone)
    (fun part parts l l₁ hl _ hfed hfin₁ => by
      obtain ⟨hhead, htail⟩ := List.pairwise_cons.mp hl.2.2.2
      rcases hl.1.checkPart hl.2.1 (List.forall_mem_cons.mp hl.2.2.1).1 hfed with
        ⟨hfalse, -⟩ | ⟨-, hdone⟩
      · cases hfalse
      · refine ⟨hdone, hfin₁, fun p hp => ?_, htail⟩
        have hrest := (List.forall_mem_cons.mp hl.2.2.1).2 p hp
        have hsame := (feedPart_same w (l.withoutUnchecked part.1) part.1 part.2).2.1
        rw [hfed] at hsame
        rw [hsame, FileLoader.withoutUnchecked, Std.ExtTreeMap.getElem?_erase, if_neg]
        · exact hrest
        · exact fun hcmp => hhead p hp (Std.LawfulEqCmp.compare_eq_iff_eq.mp hcmp))
    parts l some ⟨h, hfin, hparts, hdistinct⟩
  exact ⟨hkeeps.1, fun hres => (hkeeps.2 hres).1⟩

theorem Downloaded.getCdnFileHashesDone {id : Nat} {r : RequestData}
    (h : Downloaded file ds [] (l.finishSentRequest id)) (hb : Booked l)
    (hget : l.sentRequests[id]? = some r) (hkind : r.kind = .hashes) (dcId : DcId)
    (hashes : List FileHash) :
    Sound file ds [] ((l.finishSentRequest id).getCdnFileHashesDone w dcId hashes) := by
  have hfin := hb.not_finished hget
  have hbook := (hb.withoutHashes id).addCdnHashes dcId hashes
  rw [forgetHashesRequest, if_pos (hb.hashes id r hget hkind)] at hbook
  have hbooked := hbook.checkParts hfin ((hb.mode id r hget).mp (by rw [hkind]; rfl)) w
    l.cdnUncheckedParts.toList false
  have hadd : Downloaded file ds []
      (({ l with cdnHashesRequestId := 0 }.finishSentRequest id).addCdnHashes dcId hashes) :=
    h.congr rfl
  have hloop := @Downloaded.checkParts w _ _ _ hadd hfin l.cdnUncheckedParts.toList false
    (fun part hpart => Std.ExtTreeMap.mem_toList_iff_getElem?_eq_some.mp hpart)
    (Std.ExtTreeMap.distinct_keys_toList.imp fun hne heq =>
      hne (Std.LawfulEqCmp.compare_eq_iff_eq.mpr heq))
  rw [FileLoader.getCdnFileHashesDone]
  change Sound file ds [] (partsChecked (FileLoader.checkParts w l.cdnUncheckedParts.toList
    (({ l with cdnHashesRequestId := 0 }.finishSentRequest id).addCdnHashes dcId hashes) false))
  generalize FileLoader.checkParts w l.cdnUncheckedParts.toList
    (({ l with cdnHashesRequestId := 0 }.finishSentRequest id).addCdnHashes dcId hashes) false =
    result at hloop hbooked
  obtain ⟨l₁, _ | _ | _⟩ := result
  · exact hloop.1 rfl
  · exact .inl ⟨rfl, rfl⟩
  · exact .inr ((hloop.2 (by simp)).requestMore hbooked.1 (hbooked.2 (by simp)).1)

theorem Downloaded.awaitReference (h : Downloaded file ds [] l) (hfin : l.finished = false)
    {id : Nat} {r : RequestData} (hget : l.sentRequests[id]? = some r) :
    Downloaded file ds [] (l.awaitReference id r) := by
  have hinsert : ∀ id' : Nat, (l.awaitReference id r).sentRequests[id']? =
      if id' = id then some { r with kind := .refreshing } else l.sentRequests[id']? := by
    intro id'
    simp only [FileLoader.awaitReference, Std.ExtTreeMap.getElem?_insert,
      Std.LawfulEqCmp.compare_eq_iff_eq, @eq_comm Nat id']
  refine ⟨⟨h.parts.size, h.parts.next, fun id' r' hget' => ?_, h.parts.unchecked, h.parts.fed,
    h.parts.nodup, List.forall_mem_nil _, fun o ho => ?_, h.parts.last⟩,
    ⟨h.filled.opened, h.filled.assembled, h.filled.skipped⟩, h.cancelled,
    fun hf => absurd (hf.symm.trans hfin) Bool.noConfusion⟩
  · rw [hinsert] at hget'
    split at hget'
    · rw [← Option.some.inj hget']
      exact h.parts.sent id r hget
    · exact h.parts.sent id' r' hget'
  · rcases h.parts.covered o ho with hnil | hfed | hwaits | ⟨id', r', hget', hkind, hoffset⟩
    · cases hnil
    · exact .inr (.inl hfed)
    · exact .inr (.inr (.inl hwaits))
    · by_cases heq : id' = id
      · rw [heq, hget] at hget'
        obtain rfl := Option.some.inj hget'
        exact .inr (.inr (.inr ⟨id, { r with kind := .refreshing },
          (hinsert id).trans (if_pos rfl), by simp, hoffset⟩))
      · exact .inr (.inr (.inr ⟨id', r', (hinsert id').trans ((if_neg heq).trans hget'), hkind,
          hoffset⟩))

theorem Downloaded.setFileName (h : Downloaded file ds [] l) (filename : String) :
    Downloaded file ds [] (l.setFileName filename) := by
  rw [FileLoader.setFileName]
  split
  · exact h
  · rename_i hset
    rw [not_or, not_not, not_not] at hset
    have hcache : ∀ name, ¬(name ≠ "" ∧ l.toCache = .loadToFileOnly) := fun name hfile => by
      rw [hset.1] at hfile
      cases hfile.2
    have hfile : ¬l.InFile := hcache l.filename
    have hcontents : { l with filename }.contents = l.contents :=
      (if_neg (hcache filename)).trans (if_neg hfile).symm
    refine ⟨⟨h.parts.size, h.parts.next, h.parts.sent, h.parts.unchecked, h.parts.fed,
      h.parts.nodup, h.parts.asked, h.parts.covered, h.parts.last⟩,
      ⟨fun _ => ?_, ?_, ?_⟩, h.cancelled, h.complete⟩
    · exact iff_of_false (fun hopen => hfile ((h.filled.opened (.inr hfile)).mp hopen))
        (hcache filename)
    · rw [hcontents]
      exact h.filled.assembled
    · rw [hcontents]
      exact h.filled.skipped

/-! ### Runs in which the parts of a file are delivered -/

/-- What an answer delivers is the part of the file that was asked for, and the size that
comes with it is the size of the file. -/
def Honest (w : World) (file : Bytes) (l : FileLoader) : Event → Prop
  | .done id (.file bytes) => ∀ r ∈ l.sentRequests[id]?, bytes = filePart file r.offset
  | .done id (.webFile size bytes) =>
    size = file.length ∧ ∀ r ∈ l.sentRequests[id]?, bytes = filePart file r.offset
  | .done id (.cdnFile bytes) =>
    ∀ r ∈ l.sentRequests[id]?, l.decryptPart w r.offset bytes = filePart file r.offset
  | _ => True

/-- The offset of the part an event delivers. -/
def deliveredPart (l : FileLoader) : Event → Option Nat
  | .done id (.file _) => l.sentRequests[id]?.map RequestData.offset
  | .done id (.webFile _ _) => l.sentRequests[id]?.map RequestData.offset
  | .done id (.cdnFile _) => l.sentRequests[id]?.map RequestData.offset
  | _ => none

/-- A run of a loader with the offsets of the parts that were delivered, in their order. -/
inductive Downloading (w : World) (file : Bytes) (l₀ : FileLoader) :
    List Nat → FileLoader → Prop where
  | start : Downloading w file l₀ [] l₀
  | step {ds : List Nat} {l l' : FileLoader} {e : Event} (run : Downloading w file l₀ ds l)
      (handle : l.handle w e = some l') (honest : Honest w file l e) :
      Downloading w file l₀ (ds ++ (deliveredPart l e).toList) l'

theorem gone_handled (hb : Booked l) (hgone : l.cancelled ∧ l.finished) {e : Event}
    (hstep : Handled w l e l') : l'.cancelled ∧ l'.finished := by
  have hnone : ∀ {id : Nat} {r : RequestData}, l.sentRequests[id]? ≠ some r := fun hget =>
    absurd (hgone.2.symm.trans (hb.not_finished hget)) Bool.noConfusion
  cases hstep with
  | loadPart =>
    rw [FileLoader.loadPart, if_pos (.inl hgone.2)]
    exact hgone
  | setFileName filename =>
    rw [FileLoader.setFileName]
    split
    · exact hgone
    · exact hgone
  | cancel => exact ⟨rfl, rfl⟩
  | file bytes hget hkind => exact absurd hget hnone
  | cdnRedirect params hashes hget hkind => exact absurd hget hnone
  | webFile size bytes hget hkind => exact absurd hget hnone
  | cdnFile bytes hget hkind => exact absurd hget hnone
  | reuploadNeeded hget hkind => exact absurd hget hnone
  | reuploadDone hashes hget hkind => exact absurd hget hnone
  | hashesDone hashes hget hkind => exact absurd hget hnone
  | temporary hget he => exact absurd hget hnone
  | staleReference hget hkind => exact absurd hget hnone
  | failed hget hkind => exact absurd hget hnone
  | cdnFailed hget hkind he htoken => exact absurd hget hnone
  | tokenInvalid hget hkind he htoken => exact absurd hget hnone
  | refreshed hget hkind => exact absurd hget hnone
  | notRefreshed changed hget hkind => exact absurd hget hnone

theorem Downloaded.handled (h : Downloaded file ds [] l) (hb : Booked l) {e : Event}
    (hstep : Handled w l e l') (honest : Honest w file l e)
    (hnew : ∀ o ∈ deliveredPart l e, o ∉ ds) :
    Sound file (ds ++ (deliveredPart l e).toList) [] l' := by
  have hfinish : ∀ {id : Nat} {r : RequestData}, l.sentRequests[id]? = some r →
      Downloaded file ds [r.offset] (l.finishSentRequest id) := fun {id r} hget =>
    h.finishSentRequest (hb.not_finished hget) hget (.inr rfl)
      fun o ho => List.mem_singleton.mp ho ▸ h.parts.sent id r hget
  have hbook : ∀ id : Nat, Booked (l.finishSentRequest id) := hb.finishSentRequest
  cases hstep with
  | loadPart => exact .inr ((h.loadPart hb).mono (List.subset_append_left _ _))
  | setFileName filename => exact .inr ((h.setFileName filename).mono (List.subset_append_left _ _))
  | cancel => exact .inl ⟨rfl, rfl⟩
  | @file id r bytes hget hkind =>
    have hdelivered : deliveredPart l (.done id (.file bytes)) = some r.offset := by
      rw [deliveredPart, hget, Option.map_some]
    rw [hdelivered, honest r hget]
    exact (hfinish hget).partLoaded (hb.not_finished hget) (hnew _ hdelivered)
  | @cdnRedirect id r params hashes hget hkind =>
    rcases (hfinish hget).changeCDNParams (hbook id) (hb.not_finished hget) r.dcId params hashes with
      hgone | hdone
    · exact .inl hgone
    · exact .inr (hdone.mono (List.subset_append_left _ _))
  | @webFile id r size bytes hget hkind =>
    have hdelivered : deliveredPart l (.done id (.webFile size bytes)) = some r.offset := by
      rw [deliveredPart, hget, Option.map_some]
    rw [hdelivered, honest.1, honest.2 r hget]
    exact (hfinish hget).webPartLoaded (hb.not_finished hget) (hnew _ hdelivered)
  | @cdnFile id r bytes hget hkind =>
    have hdelivered : deliveredPart l (.done id (.cdnFile bytes)) = some r.offset := by
      rw [deliveredPart, hget, Option.map_some]
    rw [hdelivered]
    exact (hfinish hget).cdnPartLoaded (hbook id) (hb.not_finished hget) (hnew _ hdelivered)
      (honest r hget)
  | @reuploadNeeded id r hget hkind =>
    have hplace : Downloaded file ds [] ((l.finishSentRequest id).placeSentRequest
        { dcId := l.dcId, offset := r.offset, kind := .reupload }) :=
      (hfinish hget).place (hbook id) (hb.not_finished hget) (by simp) rfl
    exact .inr (hplace.mono (List.subset_append_left _ _))
  | @reuploadDone id r hashes hget hkind =>
    have hadd : Downloaded file ds [r.offset] ((l.finishSentRequest id).addCdnHashes r.dcId hashes) :=
      (hfinish hget).congr rfl
    exact .inr ((hadd.requested requested_one ((hbook id).addCdnHashes _ _) (hb.not_finished hget)
      hadd.parts.asked (List.Subset.refl _)).mono (List.subset_append_left _ _))
  | @hashesDone id r hashes hget hkind =>
    have hl : Downloaded file ds [] (l.finishSentRequest id) :=
      h.finishSentRequest (hb.not_finished hget) hget (.inl hkind) (List.forall_mem_nil _)
    rcases hl.getCdnFileHashesDone hb hget hkind r.dcId hashes with hgone | hdone
    · exact .inl hgone
    · exact .inr (hdone.mono (List.subset_append_left _ _))
  | temporary hget he => exact .inr (h.mono (List.subset_append_left _ _))
  | staleReference hget hkind =>
    exact .inr ((h.awaitReference (hb.not_finished hget) hget).mono (List.subset_append_left _ _))
  | failed hget hkind => exact .inl ⟨rfl, rfl⟩
  | cdnFailed hget hkind he htoken => exact .inl ⟨rfl, rfl⟩
  | @tokenInvalid id r e hget hkind he htoken =>
    have hforget : Downloaded file ds [r.offset]
        ((l.forgetHashesRequest id).finishSentRequest id) := by
      rw [forgetHashesRequest]
      split
      · exact (hfinish hget).congr rfl
      · exact hfinish hget
    have hfin : ((l.forgetHashesRequest id).finishSentRequest id).finished = false := by
      rw [forgetHashesRequest]
      split
      · exact hb.not_finished hget
      · exact hb.not_finished hget
    rcases hforget.changeCDNParams (hb.withoutHashes id) hfin r.dcId {} [] with hgone | hdone
    · exact .inl hgone
    · exact .inr (hdone.mono (List.subset_append_left _ _))
  | @refreshed id r hget hkind =>
    have hl := hfinish hget
    exact .inr ((hl.requested requested_one (hbook id) (hb.not_finished hget) hl.parts.asked
      (List.Subset.refl _)).mono (List.subset_append_left _ _))
  | notRefreshed changed hget hkind => exact .inl ⟨rfl, rfl⟩

theorem downloaded_start (location : Location) (dcId : DcId) {size : Nat}
    (toCache : LoadToCacheSetting) (filename : String) (hsize : size = 0 ∨ size = file.length) :
    Downloaded file [] [] (start location dcId size toCache filename) := by
  have hempty : (start location dcId size toCache filename).contents = [] := by
    rw [contents]
    split
    · rfl
    · rfl
  refine ⟨⟨hsize, Nat.dvd_zero _, fun id r hget => ?_, fun o bytes hget => ?_,
    List.forall_mem_nil _, List.nodup_nil, List.forall_mem_nil _,
    fun o ho => absurd ho.2 (Nat.not_lt_zero _), by simp [start]⟩,
    ⟨fun _ => ?_, ?_, ?_⟩, rfl, by simp [start]⟩
  · rw [start, Std.ExtTreeMap.getElem?_empty] at hget
    cases hget
  · rw [start, Std.ExtTreeMap.getElem?_empty] at hget
    cases hget
  · simp [start, InFile]
  · rw [hempty]
    exact assembled_nil
  · rw [hempty]
    rfl

/-- What the loader holds of the file. -/
structure HoldsParts (file : Bytes) (l : FileLoader) : Prop where
  placed : ∀ part ∈ l.fed, part.bytes = filePart file part.offset ∧
    (l.contents.drop part.offset).take part.bytes.length = part.bytes
  disjoint : l.fed.Pairwise fun p q =>
    p.offset + p.bytes.length ≤ q.offset ∨ q.offset + q.bytes.length ≤ p.offset
  whole : l.finished → l.contents = file
  currentOffset : l.finished = false ∨ ¬l.InFile → l.currentOffset false = l.fedBytes

theorem Downloaded.holdsParts (h : Downloaded file ds [] l) : HoldsParts file l where
  placed part hpart := by
    have hfed := h.parts.fed part hpart
    refine ⟨hfed.2.1, ?_⟩
    rw [hfed.2.1]
    exact h.filled.assembled.partAt_eq partSize_pos hfed.1.1 (List.mem_map_of_mem hpart)
  disjoint := by
    have hnodup : l.fed.Pairwise fun p q => p.offset ≠ q.offset := List.pairwise_map.mp h.parts.nodup
    refine hnodup.imp_of_mem fun hp hq hne => ?_
    have hp' := h.parts.fed _ hp
    have hq' := h.parts.fed _ hq
    rw [hp'.2.1, hq'.2.1]
    exact disjoint_parts hp'.1.1 hq'.1.1 hne
  whole hfin := by
    have hcomplete := h.complete hfin
    have hidle := isComplete_idle hcomplete
    rw [isComplete, Bool.and_eq_true, Bool.or_eq_true] at hcomplete
    have hend : file.length ≤ l.nextRequestOffset := by
      rcases hcomplete.2 with hlast | hsize
      · obtain ⟨o, ho, hlt⟩ := h.parts.last hlast
        obtain ⟨part, hpart, rfl⟩ := List.mem_map.mp ho
        obtain ⟨⟨a, ha⟩, hasked⟩ := (h.parts.fed part hpart).1
        obtain ⟨b, hb⟩ := h.parts.next
        simp only [kDownloadCdnPartSize] at ha hb hlt
        omega
      · rw [Bool.and_eq_true, bne_iff_ne, decide_eq_true_iff] at hsize
        obtain ⟨hne, hle⟩ := hsize
        rcases h.parts.size with hzero | hlen
        · exact absurd hzero hne
        · omega
    refine h.filled.assembled.eq_whole fun o haligned hlt => ?_
    rcases h.parts.covered o ⟨haligned, hlt.trans_le hend⟩ with hnil | hfed | hwaits |
      ⟨id, r, hget, -⟩
    · cases hnil
    · exact hfed
    · rw [hidle.2] at hwaits
      exact absurd hwaits Std.ExtTreeMap.not_mem_empty
    · rw [hidle.1, Std.ExtTreeMap.getElem?_empty] at hget
      cases hget
  currentOffset hor := by
    have hopen := h.filled.opened hor
    have hskipped := h.filled.skipped
    have hlen : (if l.fileIsOpen then l.file.length else l.data.length) = l.contents.length := by
      rw [contents]
      by_cases hfile : l.InFile
      · rw [if_pos (hopen.mpr hfile), if_pos hfile]
      · rw [if_neg fun ho => hfile (hopen.mp ho), if_neg hfile]
    rw [FileLoader.currentOffset, if_neg Bool.false_ne_true, ← Nat.cast_ite, hlen]
    omega

def abc : Bytes := [97, 98, 99]

/-- A loader that asked for the first part. -/
def firstAsked (toCache : LoadToCacheSetting) (filename : String) : FileLoader :=
  (start .storage 2 0 toCache filename).loadPart

/-- The first part came and was the whole file. -/
def abcLoaded (toCache : LoadToCacheSetting) (filename : String) : FileLoader :=
  ((firstAsked toCache filename).finishSentRequest 1).partLoaded abcWorld 0 abc

theorem firstAsked_sent (toCache : LoadToCacheSetting) (filename : String) :
    (firstAsked toCache filename).sentRequests[1]? = some ⟨2, 0, .part⟩ := by
  rw [firstAsked, loadPart, if_neg (by simp [start]), if_neg (by simp [start])]
  exact (getElem?_placeSentRequest _ _).trans (if_pos rfl)

theorem downloading_abc (toCache : LoadToCacheSetting) (filename : String) :
    Downloading abcWorld abc (start .storage 2 0 toCache filename) [0]
      (abcLoaded toCache filename) := by
  have hsent := firstAsked_sent toCache filename
  have hload : Downloading abcWorld abc (start .storage 2 0 toCache filename) []
      (firstAsked toCache filename) := .step (e := .loadPart) .start rfl trivial
  have hdelivered : deliveredPart (firstAsked toCache filename) (.done 1 (.file abc)) = some 0 := by
    rw [deliveredPart, hsent]
    rfl
  have hpart := Downloading.step (e := .done 1 (.file abc)) hload
    ((handle_done hsent).trans rfl) fun r hr => by
      rw [hsent] at hr
      rw [← Option.some.inj hr]
      rfl
  rw [hdelivered] at hpart
  exact hpart

end TelegramClient.Storage.FileLoader
