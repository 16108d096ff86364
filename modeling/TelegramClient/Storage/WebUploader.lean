import TelegramClient.Storage.WebFileParts
import TelegramClient.Lib.Loops

/-! The web uploader of `storage/file_upload.cpp`: a queue of files that are sent one after another,
driven by what is queued and by the replies. -/

namespace TelegramClient.Storage.WebUpload

open HashMd5 Loops Std

/-- The keys of the queue stand for the ids of messages. -/
structure Uploader where
  queue : ExtTreeMap Nat WebFile compare := ∅
  uploadingId : Option Nat := none
  isPaused : Bool := false
  requestsSent : List Nat := []
  docRequestsSent : List Nat := []
  lastReply : Nat := 0

variable (system : System) (s : Uploader)

/-- The file that is uploaded, or the first one of the queue. -/
def Uploader.current : Option (Nat × WebFile) :=
  match s.uploadingId with
  | none => s.queue.toList.head?
  | some id => (s.queue[id]?.map fun f => (id, f)).or s.queue.toList.head?

/-- What `currentFailed` does before the next file is sent. -/
def Uploader.dropCurrent : Uploader :=
  { s with
    queue := s.uploadingId.elim s.queue s.queue.erase
    requestsSent := []
    docRequestsSent := []
    uploadingId := none }

/-- The request that a file is sent with is waited for, if it is not the verification. -/
def Uploader.sent (id : Nat) (f f' : WebFile) : Uploader :=
  let reply := s.lastReply + 1
  { s with
    queue := s.queue.insert id f'
    uploadingId := some id
    lastReply := reply
    requestsSent := if f.parts ≠ [] then s.requestsSent ++ [reply] else s.requestsSent
    docRequestsSent :=
      if f.parts = [] ∧ f.docSentParts < f.docPartsCount then s.docRequestsSent ++ [reply]
      else s.docRequestsSent }

/-- A file that has failed is dropped, and the next one is sent. -/
def Uploader.sendCurrent : Uploader ⊕ Uploader :=
  if s.isPaused then .inl s
  else
    match s.current with
    | none => .inl s
    | some (id, f) =>
      match f.sendNext system (s.requestsSent.isEmpty && s.docRequestsSent.isEmpty) with
      | none => .inr ({ s with uploadingId := some id } : Uploader).dropCurrent
      | some f' => .inl (s.sent id f f')

def Uploader.sendNext : Option Uploader := iterate (Uploader.sendCurrent system) (s.queue.size + 1) s

def Uploader.currentFailed : Option Uploader := s.dropCurrent.sendNext system

inductive Event where
  | upload (id : Nat) (source : Source)
  | cancel (id : Nat)
  | pause
  | unpause
  | replied (reply : Nat) (ok : Bool)
  | verified (ok : Bool)
  | networkError

def Uploader.isUploading : Bool := s.uploadingId.any fun id => s.queue.contains id

def Uploader.partLoaded (reply : Nat) : Option Uploader :=
  if reply ∈ s.requestsSent then
    if s.isUploading then
      ({ s with requestsSent := s.requestsSent.erase reply } : Uploader).sendNext system
    else none
  else if reply ∈ s.docRequestsSent then
    if s.isUploading then
      ({ s with docRequestsSent := s.docRequestsSent.erase reply } : Uploader).sendNext system
    else none
  else s.sendNext system

def Uploader.currentReady : Option Uploader :=
  if s.isUploading then
    ({ s with
      queue := s.uploadingId.elim s.queue s.queue.erase
      uploadingId := none } : Uploader).sendNext system
  else none

def Uploader.step : Event → Option Uploader
  | .upload id source =>
    ({ s with queue := s.queue.insertIfNew id (webFile source) } : Uploader).sendNext system
  | .cancel id =>
    if s.uploadingId = some id then s.currentFailed system
    else some { s with queue := s.queue.erase id }
  | .pause => some { s with isPaused := true }
  | .unpause => ({ s with isPaused := false } : Uploader).sendNext system
  | .replied reply ok => if ok then s.partLoaded system reply else s.currentFailed system
  | .verified ok => if ok then s.currentReady system else s.currentFailed system
  | .networkError => s.currentFailed system

inductive Reachable : Uploader → Prop
  | start : Reachable {}
  | step {s s' : Uploader} {e : Event} (h : Reachable s) (hstep : s.step system e = some s') :
      Reachable s'

/-! ### What holds of all files -/

variable {system} {s} {s' : Uploader} {f : WebFile} {id : Nat}

def AllSending (system : System) (s : Uploader) : Prop :=
  ∀ (id : Nat) (f : WebFile), s.queue[id]? = some f → f.source.type.isDocument = true →
    f.source.IsSized system → Sending system f.source f

theorem current_eq_some (h : s.current = some (id, f)) : s.queue[id]? = some f := by
  have hfirst : s.queue.toList.head? = some (id, f) → s.queue[id]? = some f := by
    intro hhead
    rw [← ExtTreeMap.mem_toList_iff_getElem?_eq_some]
    exact List.mem_of_head? hhead
  rw [Uploader.current] at h
  split at h
  · exact hfirst h
  next uploading _ =>
    rw [Option.or_eq_some_iff] at h
    cases h with
    | inl hfound =>
      rw [Option.map_eq_some_iff] at hfound
      obtain ⟨f', hf', heq⟩ := hfound
      rw [← (Prod.mk.inj heq).1, ← (Prod.mk.inj heq).2]
      exact hf'
    | inr hother => exact hfirst hother.2

theorem AllSending.erase (h : AllSending system s) (id : Nat) :
    ∀ (id' : Nat) (f : WebFile), (s.queue.erase id)[id']? = some f →
      f.source.type.isDocument = true → f.source.IsSized system → Sending system f.source f := by
  intro id' f hf
  rw [ExtTreeMap.getElem?_erase] at hf
  split at hf
  · cases hf
  · exact h id' f hf

theorem AllSending.insert {f : WebFile} (h : AllSending system s) (id : Nat)
    (hf : f.source.type.isDocument = true → f.source.IsSized system → Sending system f.source f) :
    ∀ (id' : Nat) (f' : WebFile), (s.queue.insert id f)[id']? = some f' →
      f'.source.type.isDocument = true → f'.source.IsSized system → Sending system f'.source f' := by
  intro id' f' hf'
  rw [ExtTreeMap.getElem?_insert] at hf'
  split at hf'
  · rw [← Option.some.inj hf']
    exact hf
  · exact h id' f' hf'

theorem AllSending.dropCurrent (h : AllSending system s) : AllSending system s.dropCurrent := by
  unfold Uploader.dropCurrent
  cases s.uploadingId with
  | none => exact h
  | some id => exact h.erase id

theorem source_sendNext {f' : WebFile} {nothingSent : Bool}
    (hnext : f.sendNext system nothingSent = some f') : f'.source = f.source := by
  rw [WebFile.sendNext] at hnext
  split at hnext
  · rw [← Option.some.inj hnext]
    rfl
  · split at hnext
    · split at hnext
      · rw [← Option.some.inj hnext]
        rfl
      · rw [← Option.some.inj hnext]
    · rw [Option.bind_eq_bind, Option.bind_eq_some_iff] at hnext
      obtain ⟨opened, hopen, hsend⟩ := hnext
      have hopened : opened.source = f.source := by
        rw [WebFile.openFile] at hopen
        split at hopen
        · rw [← Option.some.inj hopen]
        · split at hopen
          · rw [← Option.some.inj hopen]
          · rw [Option.map_eq_some_iff] at hopen
            obtain ⟨bytes, -, rfl⟩ := hopen
            rfl
      rw [Option.ite_none_left_eq_some, Option.some.injEq] at hsend
      rw [← hsend.2, ← hopened, WebFile.sendDocPart, WebFile.readPart]
      split <;> rfl

theorem source_webFile (source : Source) : (webFile source).source = source := by
  have hset : ∀ (f : WebFile) (size : Nat), (f.setDocSize size).source = f.source := by
    intro f size
    obtain ⟨partSize, -, heq⟩ := setDocSize_eq f size
    rw [heq]
  unfold webFile
  split
  · cases source with
    | media ready => exact hset _ _
    | file result =>
      dsimp only
      split
      · exact hset _ _
      · exact hset _ _
  · rfl

theorem AllSending.sendCurrent (h : AllSending system s) :
    (∀ t, s.sendCurrent system = .inr t → AllSending system t ∧ t.queue.size < s.queue.size) ∧
      ∀ t, s.sendCurrent system = .inl t → AllSending system t := by
  unfold Uploader.sendCurrent
  split
  · refine ⟨by simp, ?_⟩
    intro t ht
    rw [← Sum.inl.inj ht]
    exact h
  · split
    · refine ⟨by simp, ?_⟩
      intro t ht
      rw [← Sum.inl.inj ht]
      exact h
    next id f hcurrent =>
      have hqueue := current_eq_some hcurrent
      have hmem : id ∈ s.queue := by
        rw [ExtTreeMap.mem_iff_isSome_getElem?, hqueue]
        rfl
      split
      · refine ⟨?_, by simp⟩
        intro t ht
        rw [← Sum.inr.inj ht]
        refine ⟨h.erase id, ?_⟩
        have hsize : (s.queue.erase id).size = s.queue.size - 1 := by
          rw [ExtTreeMap.size_erase, if_pos (ExtTreeMap.contains_iff_mem.mpr hmem)]
        have hpos : s.queue.size ≠ 0 := by
          intro hzero
          rw [← ExtTreeMap.eq_empty_iff_size_eq_zero] at hzero
          rw [hzero] at hmem
          exact ExtTreeMap.not_mem_empty hmem
        show (s.queue.erase id).size < s.queue.size
        omega
      next f' hnext =>
        refine ⟨by simp, ?_⟩
        intro t ht
        rw [← Sum.inl.inj ht]
        apply h.insert
        have hsource := source_sendNext hnext
        rw [hsource]
        intro hdocument hsized
        exact (h id f hqueue hdocument hsized).sendNext hdocument hsized hnext

theorem exists_sendNext (h : AllSending system s) : ∃ t, s.sendNext system = some t :=
  exists_iterate_le (I := AllSending system) _ (fun t => t.queue.size)
    (fun _ t' ht hagain => ht.sendCurrent.1 t' hagain) h (Nat.lt_succ_self _)

theorem AllSending.sendNext (h : AllSending system s) (hnext : s.sendNext system = some s') :
    AllSending system s' :=
  iterate_rule (I := AllSending system) (fun _ t' ht hagain => (ht.sendCurrent.1 t' hagain).1)
    (fun _ t' ht hdone => ht.sendCurrent.2 t' hdone) h hnext

theorem AllSending.partLoaded (h : AllSending system s) {reply : Nat}
    (hloaded : s.partLoaded system reply = some s') : AllSending system s' := by
  have herased : ∀ requests docRequests : List Nat, AllSending system
      { s with requestsSent := requests, docRequestsSent := docRequests } := fun _ _ => h
  rw [Uploader.partLoaded] at hloaded
  split_ifs at hloaded
  · exact (herased _ _).sendNext hloaded
  · exact (herased _ _).sendNext hloaded
  · exact h.sendNext hloaded

theorem AllSending.currentReady (h : AllSending system s)
    (hready : s.currentReady system = some s') : AllSending system s' := by
  rw [Uploader.currentReady, Option.ite_none_right_eq_some] at hready
  refine AllSending.sendNext ?_ hready.2
  cases hid : s.uploadingId with
  | none => exact h
  | some id => exact h.erase id

theorem AllSending.step {e : Event} (h : AllSending system s) (hstep : s.step system e = some s') :
    AllSending system s' := by
  cases e with
  | upload id source =>
    refine AllSending.sendNext ?_ hstep
    intro id' f hf
    rw [ExtTreeMap.getElem?_insertIfNew] at hf
    split at hf
    · rw [← Option.some.inj hf, source_webFile]
      exact sending_webFile
    · exact h id' f hf
  | cancel id =>
    rw [Uploader.step] at hstep
    split at hstep
    · exact h.dropCurrent.sendNext hstep
    · rw [← Option.some.inj hstep]
      exact h.erase id
  | pause =>
    rw [← Option.some.inj hstep]
    exact h
  | unpause => exact AllSending.sendNext (s := { s with isPaused := false }) h hstep
  | replied reply ok =>
    rw [Uploader.step] at hstep
    split at hstep
    · exact h.partLoaded hstep
    · exact h.dropCurrent.sendNext hstep
  | verified ok =>
    rw [Uploader.step] at hstep
    split at hstep
    · exact h.currentReady hstep
    · exact h.dropCurrent.sendNext hstep
  | networkError => exact h.dropCurrent.sendNext hstep

theorem Reachable.allSending (h : Reachable system s) : AllSending system s := by
  induction h with
  | start =>
    intro id f hf
    simp at hf
  | step _ hstep ih => exact ih.step hstep

/-- Whatever was sent of a document was sent under its hash, if and only if this is what was fed. -/
theorem identified_iff (h : Reachable system s) (hf : s.queue[id]? = some f)
    (hdocument : f.source.type.isDocument = true) (hsized : f.source.IsSized system) :
    Identified system f ↔ f.docPosts = [] ∧ f.verifyPosts = [] ∨ f.source.IsHashed system := by
  exact (h.allSending id f hf hdocument hsized).isHashed_iff hsized

def oneFile : System := ⟨fun path => if path = "a.txt" then some [0x61] else none, fun _ => "txt"⟩

def diskFile : Source := .file
  { type := .file, filepath := "a.txt", filename := "a.txt", filesize := 1, content := [] }

def memoryFile : Source := .file
  { type := .file, filepath := "", filename := "a.txt", filesize := 1, content := [0x61] }

theorem identified_diskFile : ∃ s f, Reachable oneFile s ∧ s.queue[1]? = some f ∧ f.docPosts ≠ [] ∧
    Identified oneFile f := by
  obtain ⟨s, f, hstep, hf, hsource, hposts⟩ : ∃ s f,
      ({} : Uploader).step oneFile (.upload 1 diskFile) = some s ∧ s.queue[1]? = some f ∧
        f.source = diskFile ∧ f.docPosts ≠ [] :=
    ⟨_, _, rfl, rfl, rfl, List.cons_ne_nil _ _⟩
  have hreachable : Reachable oneFile s := .step .start hstep
  refine ⟨s, f, hreachable, hf, hposts, (identified_iff hreachable hf ?_ ?_).mpr (.inr ?_)⟩
  · rw [hsource]
    rfl
  · rw [hsource]
    exact ⟨rfl, by decide⟩
  · rw [hsource]
    exact .inl rfl

/-- A document in memory is sent under the hash of nothing. -/
theorem memoryFile_not_identified : ¬ ∀ s f, Reachable oneFile s → s.queue[1]? = some f →
    f.source.type.isDocument = true → f.source.IsSized oneFile → Identified oneFile f := by
  intro h
  obtain ⟨s, f, hstep, hf, hsource, hpost⟩ : ∃ s f,
      ({} : Uploader).step oneFile (.upload 1 memoryFile) = some s ∧ s.queue[1]? = some f ∧
        f.source = memoryFile ∧ f.docPosts ≠ [] :=
    ⟨_, _, rfl, rfl, rfl, List.cons_ne_nil _ _⟩
  have hreachable : Reachable oneFile s := .step .start hstep
  have hdocument : f.source.type.isDocument = true := by
    rw [hsource]
    rfl
  have hsized : f.source.IsSized oneFile := by
    rw [hsource]
    exact ⟨rfl, by decide⟩
  have hidentified := h s f hreachable hf hdocument hsized
  have hsending := hreachable.allSending 1 f hf hdocument hsized
  rw [hsending.isHashed_iff hsized, hsource] at hidentified
  rcases hidentified with hnone | hdisk | haudio | hcollision
  · exact hpost hnone.1
  · cases hdisk
  · obtain ⟨result, heq, hresult⟩ := haudio
    cases heq
    cases hresult
  · revert hcollision
    show md5 [0x61] ≠ md5 []
    decide +kernel

end TelegramClient.Storage.WebUpload
