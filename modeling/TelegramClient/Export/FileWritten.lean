import TelegramClient.Export.FileProcess

/-! A file is written as a whole, in whatever order its parts come: the queue of requests holds
consecutive parts, and the file what is in front of the first of them. -/

namespace TelegramClient.Export.Files

open Assembly

/-! ### The queue -/

/-- The requests are for consecutive parts, and those that were answered have the right bytes. -/
def Queued (content : Bytes) : Nat → List Request → Nat → Prop
  | base, [], next => base = next
  | base, request :: requests, next =>
    request.offset = base ∧ (request.bytes = [] ∨ request.bytes = part content base) ∧
      Queued content (base + kFileChunkSize) requests next

def unanswered (requests : List Request) : List Nat :=
  (requests.filter fun request => request.bytes = []).map Request.offset

variable {content file : Bytes} {requests : List Request} {base next offset size : Nat}
  {s s' : ApiWrap} {process : FileProcess} {relativePath : String}

theorem kFileChunkSize_pos : 0 < kFileChunkSize := by decide

theorem part_eq_nil_iff : part content offset = [] ↔ content.length ≤ offset := by
  have hpos := kFileChunkSize_pos
  rw [← List.length_eq_zero_iff, part, length_partAt]
  omega

theorem take_append_part : content.take base ++ part content base =
    content.take (base + kFileChunkSize) := (List.take_add ..).symm

theorem Queued.le (h : Queued content base requests next) : base ≤ next := by
  induction requests generalizing base with
  | nil => exact Nat.le_of_eq h
  | cons request requests ih => exact (Nat.le_add_right _ _).trans (ih h.2.2)

theorem Queued.base_le (h : Queued content base requests next) {request : Request}
    (hrequest : request ∈ requests) : base ≤ request.offset := by
  induction requests generalizing base with
  | nil => cases hrequest
  | cons first requests ih =>
    rw [List.mem_cons] at hrequest
    cases hrequest with
    | inl hfirst => rw [hfirst, h.1]
    | inr hrest => exact (Nat.le_add_right _ _).trans (ih h.2.2 hrest)

theorem Queued.append (h : Queued content base requests next) :
    Queued content base (requests ++ [{ offset := next }]) (next + kFileChunkSize) := by
  induction requests generalizing base with
  | nil => exact ⟨h.symm, .inl rfl, by rw [h]; rfl⟩
  | cons request requests ih => exact ⟨h.1, h.2.1, ih h.2.2⟩

theorem unanswered_cons_of_nil {request : Request} (h : request.bytes = []) :
    unanswered (request :: requests) = request.offset :: unanswered requests := by
  rw [unanswered, List.filter_cons_of_pos (by simpa using h)]
  rfl

theorem unanswered_cons_of_ne {request : Request} (h : request.bytes ≠ []) :
    unanswered (request :: requests) = unanswered requests := by
  rw [unanswered, List.filter_cons_of_neg (by simpa using h)]
  rfl

theorem exists_setBytes (h : Queued content base requests next)
    (hoffset : offset ∈ unanswered requests) (hpart : part content offset ≠ []) :
    ∃ requests', setBytes offset (part content offset) requests = some requests' ∧
      Queued content base requests' next ∧
      unanswered requests' = (unanswered requests).erase offset ∧
      requests'.map Request.offset = requests.map Request.offset := by
  induction requests generalizing base with
  | nil => cases hoffset
  | cons request requests ih =>
    by_cases hsame : request.offset = offset
    · refine ⟨{ request with bytes := part content offset } :: requests, ?_, ?_, ?_, rfl⟩
      · rw [setBytes, if_pos hsame]
      · refine ⟨h.1, .inr ?_, h.2.2⟩
        rw [← h.1, hsame]
      · rw [unanswered_cons_of_ne hpart]
        by_cases hbytes : request.bytes = []
        · rw [unanswered_cons_of_nil hbytes, hsame, List.erase_cons_head]
        · -- behind it there are only larger offsets
          rw [unanswered_cons_of_ne hbytes] at hoffset
          obtain ⟨later, hlater, heq⟩ := List.mem_map.mp hoffset
          have hbase := h.2.2.base_le (List.mem_of_mem_filter hlater)
          have hpos := kFileChunkSize_pos
          have hfirst := h.1
          omega
    · have hrest : offset ∈ unanswered requests := by
        by_cases hbytes : request.bytes = []
        · rw [unanswered_cons_of_nil hbytes, List.mem_cons] at hoffset
          cases hoffset with
          | inl hfirst => exact absurd hfirst.symm hsame
          | inr hrest => exact hrest
        · rw [unanswered_cons_of_ne hbytes] at hoffset
          exact hoffset
      obtain ⟨requests', hset, hqueued, hunanswered, hoffsets⟩ := ih h.2.2 hrest
      refine ⟨request :: requests', ?_, ⟨h.1, h.2.1, hqueued⟩, ?_, ?_⟩
      · rw [setBytes, if_neg hsame, hset]
        rfl
      · by_cases hbytes : request.bytes = []
        · rw [unanswered_cons_of_nil hbytes, unanswered_cons_of_nil hbytes, hunanswered,
            List.erase_cons_tail (by simpa using hsame)]
        · rw [unanswered_cons_of_ne hbytes, unanswered_cons_of_ne hbytes, hunanswered]
      · rw [List.map_cons, List.map_cons, hoffsets]

theorem exists_writeBlocks (h : Queued content base requests next) :
    ∃ base' requests', writeBlocks requests (content.take base) = (requests', content.take base') ∧
      Queued content base' requests' next ∧ unanswered requests' = unanswered requests ∧
      requests' <:+ requests ∧ ∀ request ∈ requests'.head?, request.bytes = [] := by
  induction requests generalizing base with
  | nil =>
    refine ⟨base, [], rfl, h, rfl, List.suffix_rfl, ?_⟩
    intro request hrequest
    cases hrequest
  | cons request requests ih =>
    by_cases hbytes : request.bytes = []
    · refine ⟨base, request :: requests, ?_, h, rfl, List.suffix_rfl, ?_⟩
      · rw [writeBlocks, if_pos hbytes]
      · intro first hfirst
        rw [List.head?_cons, Option.mem_some_iff] at hfirst
        rw [← hfirst]
        exact hbytes
    · have hpart := h.2.1.resolve_left hbytes
      obtain ⟨base', requests', hwrite, hqueued, hunanswered, hsuffix, hfirst⟩ := ih h.2.2
      refine ⟨base', requests', ?_, hqueued, ?_, hsuffix.trans (List.suffix_cons _ _), hfirst⟩
      · rw [writeBlocks, if_neg hbytes, hpart, take_append_part, hwrite]
      · rw [hunanswered, unanswered_cons_of_ne hbytes]

/-! ### The process -/

/-- What holds of a process between its steps, and inside of them before the next request. -/
structure Filling (relativePath : String) (size : Nat) (content : Bytes) (s : ApiWrap)
    (process : FileProcess) : Prop where
  process_eq : s.fileProcess = some process
  path_eq : process.relativePath = relativePath
  size_eq : process.size = size
  done : s.done = []
  errors : s.errors = []
  failed : s.failed = false
  queued : ∃ base, Queued content base process.requests process.offset ∧
    process.file = content.take base
  first : ∀ request ∈ process.requests.head?, request.bytes = []
  length_le : process.requests.length ≤ kFileRequestsCount
  sent : s.sent = unanswered process.requests
  inside : size > 0 → ∀ request ∈ process.requests, request.offset < size
  alone : size = 0 → process.requests.length ≤ 1

structure Finished (relativePath : String) (content : Bytes) (s : ApiWrap) : Prop where
  process_eq : s.fileProcess = none
  done : s.done = [(relativePath, content)]
  errors : s.errors = []
  failed : s.failed = false
  sent : s.sent = []

/-- A part is on its way, or the file is done. -/
def Loads (relativePath : String) (size : Nat) (content : Bytes) (s : ApiWrap) : Prop :=
  (∃ process, Filling relativePath size content s process ∧ process.requests ≠ []) ∨
    Finished relativePath content s

theorem Filling.loadFilePart (h : Filling relativePath size content s process)
    (hint : process.size = 0 ∨ process.offset < process.size →
      process.offset + kFileChunkSize < 2 ^ 31)
    (hmore : process.requests ≠ [] ∨ process.size = 0 ∨ process.size > process.offset)
    (halone : size = 0 → process.requests = []) :
    Loads relativePath size content s.loadFilePart := by
  left
  unfold ApiWrap.loadFilePart
  rw [h.process_eq]
  dsimp only
  split
  next hstop =>
    refine ⟨process, h, ?_⟩
    cases hstop with
    | inl hfull =>
      intro hnil
      rw [hnil] at hfull
      revert hfull
      decide
    | inr hend =>
      cases hmore with
      | inl hne => exact hne
      | inr hmore => omega
  next hgo =>
    rw [not_or] at hgo
    rw [if_neg (by have := hint (by omega); omega)]
    obtain ⟨base, hqueued, hfile⟩ := h.queued
    refine ⟨_, ⟨rfl, h.path_eq, h.size_eq, h.done, h.errors, h.failed, ⟨base, hqueued.append, hfile⟩,
      ?_, ?_, ?_, ?_, ?_⟩, by simp⟩
    · intro request hrequest
      cases hrequests : process.requests with
      | nil =>
        rw [hrequests] at hrequest
        rw [← Option.mem_some_iff.mp hrequest]
      | cons first rest =>
        apply h.first
        rw [hrequests] at hrequest ⊢
        exact hrequest
    · rw [List.length_append, List.length_singleton]
      omega
    · show s.sent ++ [process.offset] = unanswered (process.requests ++ [_])
      rw [h.sent, unanswered, unanswered, List.filter_append, List.map_append]
      rfl
    · intro hsize request hrequest
      rw [List.mem_append, List.mem_singleton] at hrequest
      cases hrequest with
      | inl hold => exact h.inside hsize request hold
      | inr hnew =>
        rw [hnew]
        have := h.size_eq
        show process.offset < size
        omega
    · intro hunknown
      rw [halone hunknown]
      rfl

theorem finished_finish (hpath : process.relativePath = relativePath) (hfile : process.file = content)
    (hdone : s.done = []) (herrors : s.errors = []) (hfailed : s.failed = false)
    (hsent : s.sent = []) : Finished relativePath content (s.finish process) := by
  refine ⟨rfl, ?_, herrors, hfailed, hsent⟩
  show s.done ++ [(process.relativePath, process.file)] = _
  rw [hdone, hpath, hfile]
  rfl

theorem Filling.mem_requests (h : Filling relativePath size content s process)
    (hoffset : offset ∈ s.sent) : ∃ request ∈ process.requests, request.offset = offset ∧
      request.bytes = [] := by
  rw [h.sent] at hoffset
  obtain ⟨request, hrequest, heq⟩ := List.mem_map.mp hoffset
  obtain ⟨hmem, hbytes⟩ := List.mem_filter.mp hrequest
  exact ⟨request, hmem, heq, of_decide_eq_true hbytes⟩

theorem Filling.eq_singleton (h : Filling relativePath size content s process) (hunknown : size = 0)
    {request : Request} (hmem : request ∈ process.requests) : process.requests = [request] := by
  have hlength := h.alone hunknown
  cases hrequests : process.requests with
  | nil =>
    rw [hrequests] at hmem
    cases hmem
  | cons first rest =>
    rw [hrequests, List.length_cons] at hlength
    have hrest := List.eq_nil_of_length_eq_zero (by omega : rest.length = 0)
    rw [hrequests, hrest, List.mem_singleton] at hmem
    rw [hmem, hrest]

/-- An empty answer to the only request ends a file of unknown size. -/
theorem Filling.filePartDone_nil (h : Filling relativePath size content s process)
    (hsize : size = 0 ∨ size = content.length) (hoffset : offset ∈ s.sent)
    (hpart : part content offset = []) :
    Finished relativePath content (({ s with sent := s.sent.erase offset } : ApiWrap).filePartDone
      offset (.file (part content offset))) := by
  obtain ⟨request, hmem, heq, hbytes⟩ := h.mem_requests hoffset
  rw [part_eq_nil_iff] at hpart
  have hunknown : size = 0 := by
    by_contra hknown
    have hinside := h.inside (by omega) request hmem
    omega
  have hrequests := h.eq_singleton hunknown hmem
  have hprocess : process.size = 0 := h.size_eq.trans hunknown
  unfold ApiWrap.filePartDone
  rw [h.process_eq]
  dsimp only
  rw [if_neg (List.ne_nil_of_mem hmem), if_pos (part_eq_nil_iff.mpr hpart), if_neg (by omega)]
  obtain ⟨base, hqueued, hfile⟩ := h.queued
  rw [hrequests] at hqueued
  refine finished_finish h.path_eq ?_ h.done h.errors h.failed ?_
  · rw [hfile]
    apply List.take_of_length_le
    have hfirst := hqueued.1
    omega
  · show s.sent.erase offset = []
    rw [h.sent, hrequests, unanswered_cons_of_nil hbytes, heq, List.erase_cons_head]
    rfl

theorem Filling.offset_lt (h : Filling relativePath size content s process)
    (hlength : content.length ≤ kFileMaxSize) (hsize : size = 0 ∨ size = content.length)
    (hunknown : size = 0 → process.offset < content.length + kFileChunkSize)
    (hmore : process.size = 0 ∨ process.offset < process.size) :
    process.offset + kFileChunkSize < 2 ^ 31 := by
  have hsizes := h.size_eq
  unfold kFileMaxSize at hlength
  unfold kFileChunkSize at hunknown ⊢
  by_cases hzero : size = 0
  · have := hunknown hzero
    omega
  · omega

/-- Nothing is left of the queue when all of its requests are answered. -/
theorem eq_nil_of_unanswered (hfirst : ∀ request ∈ requests.head?, request.bytes = [])
    (h : unanswered requests = []) : requests = [] := by
  cases requests with
  | nil => rfl
  | cons request requests =>
    rw [unanswered_cons_of_nil (hfirst request rfl)] at h
    cases h

theorem Filling.filePartDone_ne_nil (h : Filling relativePath size content s process)
    (hlength : content.length ≤ kFileMaxSize) (hsize : size = 0 ∨ size = content.length)
    (hoffset : offset ∈ s.sent) (hpart : part content offset ≠ []) :
    Loads relativePath size content (({ s with sent := s.sent.erase offset } : ApiWrap).filePartDone
      offset (.file (part content offset))) := by
  obtain ⟨base, hqueued, hfile⟩ := h.queued
  obtain ⟨request, hmem, heq, hbytes⟩ := h.mem_requests hoffset
  rw [h.sent] at hoffset
  obtain ⟨filled, hset, hfilled, herase, hoffsets⟩ := exists_setBytes hqueued hoffset hpart
  obtain ⟨base', left, hwrite, hleft, hunanswered, hsuffix, hfirst⟩ := exists_writeBlocks hfilled
  have hcount : filled.length = process.requests.length := by
    simpa using congrArg List.length hoffsets
  have halone : size = 0 → left = [] := by
    intro hunknown
    apply eq_nil_of_unanswered hfirst
    rw [hunanswered, herase, h.eq_singleton hunknown hmem, unanswered_cons_of_nil hbytes, heq,
      List.erase_cons_head]
    rfl
  have hbehind : size = 0 → process.offset < content.length + kFileChunkSize := by
    intro hunknown
    rw [h.eq_singleton hunknown hmem] at hqueued
    have hbase := hqueued.1
    have hnext : base + kFileChunkSize = process.offset := hqueued.2.2
    rw [ne_eq, part_eq_nil_iff] at hpart
    omega
  unfold ApiWrap.filePartDone
  rw [h.process_eq]
  dsimp only
  rw [if_neg (List.ne_nil_of_mem hmem), if_neg hpart, hset]
  dsimp only
  rw [hfile, hwrite]
  have hnext : Filling relativePath size content
      { s with
        sent := s.sent.erase offset
        fileProcess := some { process with requests := left, file := content.take base' } }
      { process with requests := left, file := content.take base' } := by
    refine ⟨rfl, h.path_eq, h.size_eq, h.done, h.errors, h.failed, ⟨base', hleft, rfl⟩, hfirst, ?_, ?_, ?_,
      ?_⟩
    · exact (hsuffix.length_le.trans_eq hcount).trans h.length_le
    · show s.sent.erase offset = unanswered left
      rw [h.sent, hunanswered, herase]
    · intro hknown request hrequest
      have hold : request.offset ∈ process.requests.map Request.offset := by
        rw [← hoffsets]
        exact List.mem_map_of_mem (hsuffix.subset hrequest)
      obtain ⟨old, hmem, heq⟩ := List.mem_map.mp hold
      rw [← heq]
      exact h.inside hknown old hmem
    · exact fun hunknown => (hsuffix.length_le.trans_eq hcount).trans (h.alone hunknown)
  split
  next hmore => exact hnext.loadFilePart (hnext.offset_lt hlength hsize hbehind) hmore halone
  next hend =>
    simp only [not_or, not_not] at hend
    obtain ⟨hnil, hknown, hbehind⟩ := hend
    right
    have hsizes := h.size_eq
    refine finished_finish h.path_eq ?_ h.done h.errors h.failed ?_
    · show content.take base' = content
      apply List.take_of_length_le
      rw [hnil] at hleft
      have hbase : base' = process.offset := hleft
      omega
    · show s.sent.erase offset = []
      rw [h.sent, ← herase, ← hunanswered, hnil]
      rfl

/-! ### Runs -/

theorem loads_loadFile (relativePath : String) (size : Nat) (content : Bytes) :
    Loads relativePath size content (loadFile relativePath size) := by
  have hstart : Filling relativePath size content
      { fileProcess := some { relativePath := relativePath, size := size } }
      { relativePath := relativePath, size := size } := by
    refine ⟨rfl, rfl, rfl, rfl, rfl, rfl, ⟨0, rfl, rfl⟩, ?_, Nat.zero_le _, rfl, ?_,
      fun _ => Nat.zero_le _⟩
    · intro request hrequest
      cases hrequest
    · intro _ request hrequest
      cases hrequest
  apply hstart.loadFilePart
  · intro _
    show 0 + kFileChunkSize < 2 ^ 31
    decide
  · rw [or_iff_not_imp_left]
    intro _
    exact Nat.eq_zero_or_pos size
  · exact fun _ => rfl

theorem Loads.step {e : Event} (h : Loads relativePath size content s)
    (hlength : content.length ≤ kFileMaxSize) (hsize : size = 0 ∨ size = content.length)
    (he : OnlyOfKnownSize size s e) (hstep : s.step content e = some s') :
    Loads relativePath size content s' := by
  cases h with
  | inl hfilling =>
    obtain ⟨process, hfilling, hne⟩ := hfilling
    cases e with
    | answered offset =>
      rw [ApiWrap.step, Option.ite_none_right_eq_some, Option.some.injEq] at hstep
      obtain ⟨hsent, rfl⟩ := hstep
      by_cases hpart : part content offset = []
      · exact .inr (hfilling.filePartDone_nil hsize hsent hpart)
      · exact hfilling.filePartDone_ne_nil hlength hsize hsent hpart
    | loadFilePart =>
      have hknown : size > 0 := he rfl
      rw [← Option.some.inj hstep]
      apply hfilling.loadFilePart (hfilling.offset_lt hlength hsize _) (.inl hne)
      · intro hunknown
        omega
      · intro hunknown
        omega
  | inr hfinished =>
    cases e with
    | answered offset =>
      rw [ApiWrap.step, hfinished.sent, if_neg List.not_mem_nil] at hstep
      cases hstep
    | loadFilePart =>
      rw [ApiWrap.step, ApiWrap.loadFilePart, hfinished.process_eq] at hstep
      rw [← Option.some.inj hstep]
      exact .inr hfinished

theorem Loads.written (h : Loads relativePath size content s)
    (hsize : size = 0 ∨ size = content.length) : Assembles relativePath size content s := by
  cases h with
  | inl hfilling =>
    obtain ⟨process, hfilling, hne⟩ := hfilling
    obtain ⟨base, hqueued, hfile⟩ := hfilling.queued
    obtain ⟨first, rest, hrequests⟩ := List.exists_cons_of_ne_nil hne
    have hbytes := hfilling.first first (by rw [hrequests]; rfl)
    refine ⟨hfilling.failed, hfilling.errors, ?_, ?_, ?_, ?_⟩
    · rw [hfilling.sent, unanswered, List.length_map]
      exact (List.length_filter_le _ _).trans hfilling.length_le
    · intro process' hprocess'
      rw [hfilling.process_eq, Option.some.injEq] at hprocess'
      rw [← hprocess', hfile]
      refine ⟨List.take_prefix _ _, ?_⟩
      intro hknown heq
      rw [List.take_eq_self_iff] at heq
      have hinside := hfilling.inside hknown first (by rw [hrequests]; exact List.mem_cons_self)
      rw [hrequests] at hqueued
      have hbase := hqueued.1
      omega
    · intro _
      refine ⟨hfilling.done, ?_⟩
      rw [hfilling.sent, hrequests, unanswered_cons_of_nil hbytes]
      exact List.cons_ne_nil _ _
    · intro hnone
      rw [hfilling.process_eq] at hnone
      cases hnone
  | inr hfinished =>
    refine ⟨hfinished.failed, hfinished.errors, ?_, ?_, ?_, ?_⟩
    · rw [hfinished.sent]
      exact Nat.zero_le _
    · intro process hprocess
      rw [hfinished.process_eq] at hprocess
      cases hprocess
    · intro hsome
      rw [hfinished.process_eq] at hsome
      cases hsome
    · intro _
      exact ⟨hfinished.done, hfinished.sent⟩

end TelegramClient.Export.Files
