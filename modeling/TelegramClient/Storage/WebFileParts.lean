import TelegramClient.Storage.WebFile

/-! What is posted of a document: its parts in their order, each under the hash of what was fed
to `md5Hash`. -/

namespace TelegramClient.Storage.WebUpload

open HashMd5 Assembly

variable {system : System} {source : Source} {f f' : WebFile} {size partSize : Nat}

/-! ### Hashes in hexadecimal digits -/

def digitValue (b : UInt8) : UInt8 := if b < 0x61 then b - 0x30 else b - 0x61 + 10

theorem hex_cons (b : UInt8) (digest : Bytes) :
    ∃ high low, hex (b :: digest) = high :: low :: hex digest ∧
      b = digitValue high * 16 + digitValue low := by
  have hall : ∀ k < 256, UInt8.ofNat k =
      digitValue (hexDigit ((UInt8.ofNat k >>> 4) &&& 0x0F)) * 16 +
        digitValue (hexDigit (UInt8.ofNat k &&& 0x0F)) := by decide +kernel
  have hb := hall b.toNat b.toNat_lt
  rw [UInt8.ofNat_toNat] at hb
  exact ⟨_, _, rfl, hb⟩

theorem hex_injective : Function.Injective hex := by
  intro xs ys h
  induction xs generalizing ys with
  | nil =>
    cases ys with
    | nil => rfl
    | cons b ys =>
      obtain ⟨high, low, heq, -⟩ := hex_cons b ys
      rw [heq] at h
      cases h
  | cons a xs ih =>
    obtain ⟨high, low, heq, ha⟩ := hex_cons a xs
    cases ys with
    | nil =>
      rw [heq] at h
      cases h
    | cons b ys =>
      obtain ⟨high', low', heq', hb⟩ := hex_cons b ys
      rw [heq, heq', List.cons.injEq, List.cons.injEq] at h
      obtain ⟨hhigh, hlow, hrest⟩ := h
      rw [ha, hb, hhigh, hlow, ih hrest]

theorem result_feed {bytes : Bytes} (h : bytes.length < 2 ^ 32) : (feed {} bytes).result = md5 bytes :=
  (fed_nil.feed bytes h).result

/-! ### The parts of a document -/

theorem le_partsCountOf (h : 0 < partSize) : size ≤ partsCountOf size partSize * partSize := by
  have hdiv := Nat.div_add_mod size partSize
  rw [partsCountOf]
  split
  · rw [Nat.add_zero, Nat.mul_comm]
    omega
  · rw [Nat.add_mul, Nat.one_mul, Nat.mul_comm]
    have := Nat.mod_lt size h
    omega

theorem succ_mul_le_of_lt_partsCountOf {i : Nat} (hi : i + 1 < partsCountOf size partSize) :
    (i + 1) * partSize ≤ size := by
  have hdiv := Nat.div_mul_le_self size partSize
  have hle : i + 1 ≤ size / partSize := by
    rw [partsCountOf] at hi
    split at hi <;> omega
  exact (Nat.mul_le_mul_right partSize hle).trans hdiv

theorem flatten_parts (content : Bytes) (n : Nat) :
    ((List.range n).map fun i => partAt partSize content (i * partSize)).flatten =
      content.take (n * partSize) := by
  induction n with
  | zero => simp
  | succ n ih =>
    rw [List.range_succ, List.map_append, List.flatten_append, ih, Nat.succ_mul, List.take_add]
    simp [partAt]

/-! ### What is fed -/

def Source.document (system : System) (source : Source) : Bytes :=
  if source.content ≠ [] then source.content else (system.readFile source.filepath).getD []

def Source.docSize : Source → Nat
  | .media ready => if ready.file = "" then ready.data.length else ready.filesize
  | .file result => result.filesize

/-- The size of a document is known when it is queued, and it is an `int`. -/
structure Source.IsSized (system : System) (source : Source) : Prop where
  size_eq : source.docSize = (source.document system).length
  lt : source.docSize < 2 ^ 31

def Source.fedAtStart : Source → Bytes
  | .media _ => []
  | .file result => if result.type = .audio then result.content else []

/-- The bytes whose hash the requests are sent with. -/
def Source.hashed (system : System) (source : Source) : Bytes :=
  if source.content ≠ [] then source.fedAtStart else source.document system

/-- The hash of the document is that of what was fed: the document is on the disk, or it is an
audio file that was prepared for sending, or its hash is that of nothing. -/
def Source.IsHashed (system : System) (source : Source) : Prop :=
  source.content = [] ∨ (∃ result, source = .file result ∧ result.type = .audio) ∨
    md5 (source.document system) = md5 []

theorem Source.isHashed_iff (source : Source) :
    source.IsHashed system ↔ md5 (source.hashed system) = md5 (source.document system) := by
  rw [IsHashed, hashed]
  by_cases hcontent : source.content = []
  · simp [hcontent]
  · rw [if_pos hcontent]
    cases source with
    | media ready => simp [hcontent, fedAtStart, eq_comm]
    | file result =>
      have hdocument : (Source.file result).document system = result.content := if_pos hcontent
      by_cases haudio : result.type = .audio
      · simp [haudio, fedAtStart, hdocument]
      · have hnot : ¬ ∃ other, Source.file result = .file other ∧ other.type = .audio := by
          rintro ⟨other, heq, hother⟩
          cases heq
          exact haudio hother
        simp only [hcontent, fedAtStart, haudio, hnot, false_or, if_false]
        exact eq_comm

/-! ### What is posted -/

def docPost (system : System) (source : Source) (docPartSize docPartsCount i : Nat) : PartPost where
  fileUuid := hex (md5 (source.hashed system))
  fileType := system.suffix source.filename
  fileCount := docPartsCount
  fileCountId := i + 1
  fileForm := partAt docPartSize (source.document system) (i * docPartSize)
  fileName := source.filename
  fileHash := hex (md5 (partAt docPartSize (source.document system) (i * docPartSize)))

/-- A document while its parts are sent. -/
structure Sending (system : System) (source : Source) (f : WebFile) : Prop where
  source_eq : f.source = source
  partSize_pos : 0 < f.docPartSize
  partsCount_eq : f.docPartsCount = partsCountOf source.docSize f.docPartSize
  sent_le : f.docSentParts ≤ f.docPartsCount
  memory : source.content ≠ [] → Fed f.md5Hash source.fedAtStart
  closed : source.content = [] → f.docFile = none → f.docSentParts = 0 ∧ Fed f.md5Hash []
  opened : ∀ rest, source.content = [] → f.docFile = some rest →
    rest = (source.document system).drop (f.docSentParts * f.docPartSize) ∧
      Fed f.md5Hash (source.document system)
  docPosts_eq : f.docPosts =
    (List.range f.docSentParts).map (docPost system source f.docPartSize f.docPartsCount)
  verified : ∀ post ∈ f.verifyPosts, f.docSentParts = f.docPartsCount ∧
    post = ⟨hex (md5 (source.hashed system)), system.suffix source.filename, f.docPartsCount⟩

theorem setDocSize_eq (f : WebFile) (size : Nat) : ∃ partSize, 0 < partSize ∧
    f.setDocSize size = { f with
      docSize := size
      docPartSize := partSize
      docPartsCount := partsCountOf size partSize } := by
  rw [WebFile.setDocSize]
  split
  · exact ⟨kDocumentUploadPartSize0, by decide, rfl⟩
  · split
    · exact ⟨kDocumentUploadPartSize1, by decide, rfl⟩
    · split
      · exact ⟨kDocumentUploadPartSize2, by decide, rfl⟩
      · exact ⟨kDocumentUploadPartSize3, by decide, rfl⟩

theorem Source.IsSized.length_content_lt (h : source.IsSized system) :
    source.content.length < 2 ^ 31 := by
  by_cases hcontent : source.content = []
  · rw [hcontent]
    decide
  · have hsize := h.size_eq
    rw [document, if_pos hcontent] at hsize
    have hlt := h.lt
    omega

theorem fedAtStart_eq_nil (h : source.content = []) : source.fedAtStart = [] := by
  cases source with
  | media ready => rfl
  | file result =>
    rw [Source.fedAtStart]
    split
    · exact h
    · rfl

theorem sending_start {md5Hash : HashMd5} (hpos : 0 < partSize)
    (hfed : Fed md5Hash source.fedAtStart) : Sending system source {
      source := source
      parts := source.parts
      partsCount := source.parts.length
      md5Hash := md5Hash
      docSize := source.docSize
      docPartSize := partSize
      docPartsCount := partsCountOf source.docSize partSize } := by
  refine ⟨rfl, hpos, rfl, Nat.zero_le _, fun _ => hfed, ?_, ?_, rfl, ?_⟩
  · intro hcontent _
    rw [fedAtStart_eq_nil hcontent] at hfed
    exact ⟨rfl, hfed⟩
  · intro rest _ hrest
    cases hrest
  · intro post hpost
    cases hpost

theorem sending_webFile (hdocument : source.type.isDocument = true)
    (hsized : source.IsSized system) : Sending system source (webFile source) := by
  obtain ⟨partSize, hpos, heq⟩ := setDocSize_eq
    { source := source, parts := source.parts, partsCount := source.parts.length } source.docSize
  have hlength := hsized.length_content_lt
  unfold webFile
  rw [if_pos hdocument]
  cases source with
  | media ready =>
    dsimp only [Source.docSize] at heq ⊢
    rw [heq]
    exact sending_start hpos fed_nil
  | file result =>
    dsimp only [Source.docSize, Source.content] at heq hlength ⊢
    rw [heq]
    split
    next haudio =>
      apply sending_start hpos
      rw [Source.fedAtStart, if_pos haudio]
      exact fed_nil.feed result.content (by omega)
    next haudio =>
      apply sending_start hpos
      rw [Source.fedAtStart, if_neg haudio]
      exact fed_nil

/-! ### Sending the parts -/

theorem Sending.sendPart (h : Sending system source f) (key : Nat) (part : Bytes)
    (rest : List (Nat × Bytes)) : Sending system source (f.sendPart system key part rest) :=
  ⟨h.source_eq, h.partSize_pos, h.partsCount_eq, h.sent_le, h.memory, h.closed, h.opened,
    h.docPosts_eq, h.verified⟩

theorem hashed_of_memory (h : source.content ≠ []) : source.hashed system = source.fedAtStart :=
  if_pos h

theorem hashed_of_disk (h : source.content = []) :
    source.hashed system = source.document system := if_neg (not_not.mpr h)

theorem Sending.fed_of_all (h : Sending system source f) (hsized : source.IsSized system)
    (hall : f.docPartsCount ≤ f.docSentParts) : Fed f.md5Hash (source.hashed system) := by
  by_cases hcontent : source.content = []
  · rw [hashed_of_disk hcontent]
    cases hfile : f.docFile with
    | none =>
      obtain ⟨hzero, hfed⟩ := h.closed hcontent hfile
      have hcount := h.partsCount_eq
      have hle := @le_partsCountOf source.docSize f.docPartSize h.partSize_pos
      rw [← hcount, show f.docPartsCount = 0 by omega, hsized.size_eq] at hle
      rw [List.eq_nil_of_length_eq_zero (by omega : (source.document system).length = 0)]
      exact hfed
    | some rest => exact (h.opened rest hcontent hfile).2
  · rw [hashed_of_memory hcontent]
    exact h.memory hcontent

theorem Sending.fileUuid_eq (h : Sending system source f) (hdocument : source.type.isDocument = true)
    (hfed : Fed f.md5Hash (source.hashed system)) :
    f.fileUuid = hex (md5 (source.hashed system)) := by
  rw [WebFile.fileUuid, h.source_eq, if_pos hdocument, hfed.result]

theorem Sending.verify (h : Sending system source f) (hdocument : source.type.isDocument = true)
    (hsized : source.IsSized system) (hall : f.docPartsCount ≤ f.docSentParts) :
    Sending system source (f.verify system) := by
  refine ⟨h.source_eq, h.partSize_pos, h.partsCount_eq, h.sent_le, h.memory, h.closed, h.opened,
    h.docPosts_eq, ?_⟩
  intro post hpost
  have hsent := h.sent_le
  refine ⟨show f.docSentParts = f.docPartsCount by omega, ?_⟩
  have hmem : post ∈ f.verifyPosts ++ [_] := hpost
  rw [List.mem_append, List.mem_singleton] at hmem
  cases hmem with
  | inl hold => exact (h.verified post hold).2
  | inr hnew =>
    rw [hnew, h.fileUuid_eq hdocument (h.fed_of_all hsized hall), h.source_eq, if_pos hdocument]
    rfl

theorem Sending.openFile (h : Sending system source f) (hsized : source.IsSized system)
    (hopen : f.openFile system = some f') : Sending system source f' ∧
      Fed f'.md5Hash (source.hashed system) ∧ f'.docSentParts = f.docSentParts ∧
      f'.docPartsCount = f.docPartsCount ∧ (source.content = [] → f'.docFile ≠ none) := by
  rw [WebFile.openFile, h.source_eq] at hopen
  split at hopen
  next hcontent =>
    rw [← Option.some.inj hopen]
    refine ⟨h, ?_, rfl, rfl, fun hnil => absurd hnil hcontent⟩
    rw [hashed_of_memory hcontent]
    exact h.memory hcontent
  next hcontent =>
    rw [not_not] at hcontent
    rw [hashed_of_disk hcontent]
    split at hopen
    next rest hrest =>
      rw [← Option.some.inj hopen]
      exact ⟨h, (h.opened rest hcontent hrest).2, rfl, rfl, fun _ => by simp [hrest]⟩
    next hnone =>
      rw [Option.map_eq_some_iff] at hopen
      obtain ⟨bytes, hread, rfl⟩ := hopen
      obtain ⟨hzero, hfed⟩ := h.closed hcontent hnone
      have hbytes : source.document system = bytes := by
        rw [Source.document, if_neg (not_not.mpr hcontent), hread]
        rfl
      have hlength : bytes.length < 2 ^ 32 := by
        rw [← hbytes, ← hsized.size_eq]
        have hlt := hsized.lt
        omega
      have hfile : Fed (f.md5Hash.feed bytes) (source.document system) := by
        rw [hbytes]
        exact hfed.feed bytes hlength
      refine ⟨⟨rfl, h.partSize_pos, h.partsCount_eq, h.sent_le, ?_, ?_, ?_, h.docPosts_eq,
        h.verified⟩, hfile, rfl, rfl, fun _ => by simp⟩
      · exact fun hne => absurd hcontent hne
      · intro _ hclosed
        cases hclosed
      · intro rest _ hrest
        have hsame : some bytes = some rest := hrest
        refine ⟨?_, hfile⟩
        show rest = (source.document system).drop (f.docSentParts * f.docPartSize)
        rw [hzero, Nat.zero_mul, List.drop_zero, hbytes, ← Option.some.inj hsame]

theorem Sending.readPart_fst (h : Sending system source f)
    (hopened : source.content = [] → f.docFile ≠ none) :
    f.readPart.1 = partAt f.docPartSize (source.document system) (f.docSentParts * f.docPartSize) := by
  rw [WebFile.readPart, h.source_eq, partAt]
  split
  next hcontent => rw [Source.document, if_pos hcontent]
  next hcontent =>
    rw [not_not] at hcontent
    cases hfile : f.docFile with
    | none => exact absurd hfile (hopened hcontent)
    | some rest => rw [Option.getD_some, (h.opened rest hcontent hfile).1]

theorem length_partAt_lt {whole : Bytes} {offset : Nat} (h : whole.length < 2 ^ 31) :
    (partAt partSize whole offset).length < 2 ^ 32 := by
  rw [length_partAt]
  omega

theorem Sending.sendDocPart (h : Sending system source f) (hdocument : source.type.isDocument = true)
    (hsized : source.IsSized system) (hfed : Fed f.md5Hash (source.hashed system))
    (hopened : source.content = [] → f.docFile ≠ none) (hless : f.docSentParts < f.docPartsCount) :
    Sending system source (f.readPart.2.sendDocPart system f.readPart.1) := by
  have hread := h.readPart_fst hopened
  have hlength : f.readPart.1.length < 2 ^ 32 := by
    rw [hread]
    apply length_partAt_lt
    rw [← hsized.size_eq]
    exact hsized.lt
  have hpost : ∀ g : WebFile, g.source = source → g.fileUuid = hex (md5 (source.hashed system)) →
      g.docSentParts = f.docSentParts → g.docPartsCount = f.docPartsCount →
      g.docPosts = f.docPosts → (g.sendDocPart system f.readPart.1).docPosts =
        (List.range (f.docSentParts + 1)).map
          (docPost system source f.docPartSize f.docPartsCount) := by
    intro g hsource huuid hsent hcount hposts
    rw [WebFile.sendDocPart, result_feed hlength, huuid, hsource, hsent, hcount, hposts, hread,
      List.range_succ, List.map_append, ← h.docPosts_eq]
    rfl
  have huuid := h.fileUuid_eq hdocument hfed
  have hverified : ∀ post ∈ f.verifyPosts, f.docSentParts + 1 = f.docPartsCount ∧
      post = ⟨hex (md5 (source.hashed system)), system.suffix source.filename, f.docPartsCount⟩ := by
    intro post hpost
    have hall := (h.verified post hpost).1
    omega
  by_cases hcontent : source.content = []
  · have hstate : f.readPart.2 = { f with docFile := f.docFile.map (List.drop f.docPartSize) } := by
      rw [WebFile.readPart, h.source_eq, if_neg (not_not.mpr hcontent)]
    rw [hstate]
    refine ⟨h.source_eq, h.partSize_pos, h.partsCount_eq, hless, fun hne => absurd hcontent hne, ?_, ?_,
      hpost _ h.source_eq huuid rfl rfl rfl, hverified⟩
    · intro _ hclosed
      have hmap : f.docFile.map (List.drop f.docPartSize) = none := hclosed
      rw [Option.map_eq_none_iff] at hmap
      exact absurd hmap (hopened hcontent)
    · intro rest _ hrest
      have hmap : f.docFile.map (List.drop f.docPartSize) = some rest := hrest
      rw [Option.map_eq_some_iff] at hmap
      obtain ⟨ahead, hahead, rfl⟩ := hmap
      obtain ⟨heq, hall⟩ := h.opened ahead hcontent hahead
      refine ⟨?_, hall⟩
      show ahead.drop f.docPartSize = (source.document system).drop ((f.docSentParts + 1) * f.docPartSize)
      rw [heq, List.drop_drop, Nat.succ_mul]
  · have hstate : f.readPart.2 = f := by rw [WebFile.readPart, h.source_eq, if_pos hcontent]
    rw [hstate]
    exact ⟨h.source_eq, h.partSize_pos, h.partsCount_eq, hless, h.memory,
      fun hnil => absurd hnil hcontent, fun _ hnil => absurd hnil hcontent,
      hpost f h.source_eq huuid rfl rfl rfl, hverified⟩

theorem Sending.sendNext (h : Sending system source f) (hdocument : source.type.isDocument = true)
    (hsized : source.IsSized system) {nothingSent : Bool}
    (hnext : f.sendNext system nothingSent = some f') : Sending system source f' := by
  rw [WebFile.sendNext] at hnext
  split at hnext
  next key part rest _ =>
    rw [← Option.some.inj hnext]
    exact h.sendPart key part rest
  next =>
    split at hnext
    next hall =>
      split at hnext
      · rw [← Option.some.inj hnext]
        exact h.verify hdocument hsized hall
      · rw [← Option.some.inj hnext]
        exact h
    next hmore =>
      rw [Option.bind_eq_bind, Option.bind_eq_some_iff] at hnext
      obtain ⟨opened, hopen, hsend⟩ := hnext
      obtain ⟨hopened, hfed, hsent, hcount, hfile⟩ := h.openFile hsized hopen
      rw [Option.ite_none_left_eq_some, Option.some.injEq] at hsend
      rw [← hsend.2]
      exact hopened.sendDocPart hdocument hsized hfed hfile (by omega)

/-- A part of a document is posted, unless its file cannot be opened. -/
theorem Sending.sendNext_isSome (h : Sending system source f) (hsized : source.IsSized system)
    {opened : WebFile} (hopen : f.openFile system = some opened) (nothingSent : Bool) :
    (f.sendNext system nothingSent).isSome := by
  rw [WebFile.sendNext]
  split
  · rfl
  · split
    · split <;> rfl
    next hmore =>
      obtain ⟨hopened, -, hsent, hcount, hfile⟩ := h.openFile hsized hopen
      rw [Option.bind_eq_bind, hopen, Option.bind_some]
      have hfull : ¬ (opened.readPart.1.length < opened.readPart.2.docPartSize ∧
          opened.readPart.2.docSentParts + 1 ≠ opened.readPart.2.docPartsCount) := by
        intro hshort
        rw [hopened.readPart_fst hfile, length_partAt] at hshort
        have hsame : opened.readPart.2.docPartSize = opened.docPartSize ∧
            opened.readPart.2.docSentParts = opened.docSentParts ∧
            opened.readPart.2.docPartsCount = opened.docPartsCount := by
          rw [WebFile.readPart]
          split
          · exact ⟨rfl, rfl, rfl⟩
          · exact ⟨rfl, rfl, rfl⟩
        have hpartsCount := hopened.partsCount_eq
        have hle := @succ_mul_le_of_lt_partsCountOf source.docSize opened.docPartSize
          opened.docSentParts (by omega)
        rw [Nat.succ_mul, hsized.size_eq] at hle
        omega
      dsimp only
      rw [if_neg hfull]
      rfl

/-! ### The identity of a document -/

/-- The document is sent in its parts and under its hash. -/
structure Identified (system : System) (f : WebFile) : Prop where
  parts : f.docPosts.map (fun post =>
      (post.fileUuid, post.fileCount, post.fileCountId, post.fileForm, post.fileHash)) =
    (List.range f.docSentParts).map fun i =>
      (hex (md5 (f.source.document system)), f.docPartsCount, i + 1,
        partAt f.docPartSize (f.source.document system) (i * f.docPartSize),
        hex (md5 (partAt f.docPartSize (f.source.document system) (i * f.docPartSize))))
  whole : f.docSentParts = f.docPartsCount →
    (f.docPosts.map PartPost.fileForm).flatten = f.source.document system
  verified : ∀ post ∈ f.verifyPosts, f.docSentParts = f.docPartsCount ∧
    post.fileUuid = hex (md5 (f.source.document system)) ∧ post.fileCount = f.docPartsCount

theorem Sending.isHashed_iff (h : Sending system source f) (hsized : source.IsSized system) :
    Identified system f ↔
      f.docPosts = [] ∧ f.verifyPosts = [] ∨ source.IsHashed system := by
  have hforms : (f.docPosts.map PartPost.fileForm) = (List.range f.docSentParts).map fun i =>
      partAt f.docPartSize (source.document system) (i * f.docPartSize) := by
    rw [h.docPosts_eq, List.map_map]
    rfl
  have hwhole : f.docSentParts = f.docPartsCount →
      (f.docPosts.map PartPost.fileForm).flatten = source.document system := by
    intro hall
    rw [hforms, flatten_parts, hall, h.partsCount_eq]
    apply List.take_of_length_le
    rw [← hsized.size_eq]
    exact le_partsCountOf h.partSize_pos
  constructor
  · intro hidentified
    rw [or_iff_not_imp_left, source.isHashed_iff]
    intro hposted
    rw [not_and_or] at hposted
    cases hposted with
    | inl hdoc =>
      have hparts := hidentified.parts
      rw [h.source_eq, h.docPosts_eq, List.map_map] at hparts
      cases hcount : f.docSentParts with
      | zero =>
        rw [h.docPosts_eq, hcount] at hdoc
        exact absurd rfl hdoc
      | succ n =>
        rw [hcount, List.map_inj_left] at hparts
        exact hex_injective (Prod.mk.inj (hparts 0 (List.mem_range.mpr (Nat.succ_pos n)))).1
    | inr hverify =>
      obtain ⟨post, hpost⟩ := List.exists_mem_of_ne_nil _ hverify
      have huuid := (hidentified.verified post hpost).2.1
      rw [(h.verified post hpost).2, h.source_eq] at huuid
      exact hex_injective huuid
  · intro hright
    refine ⟨?_, ?_, ?_⟩
    · cases hright with
      | inl hnone =>
        have hnil := h.docPosts_eq
        rw [hnone.1] at hnil
        have hzero : f.docSentParts = 0 := by simpa using (List.map_eq_nil_iff.mp hnil.symm)
        rw [hnone.1, hzero]
        rfl
      | inr hhashed =>
        rw [source.isHashed_iff] at hhashed
        rw [h.docPosts_eq, List.map_map, h.source_eq, ← hhashed]
        rfl
    · rw [h.source_eq]
      exact hwhole
    · intro post hpost
      cases hright with
      | inl hnone =>
        rw [hnone.2] at hpost
        cases hpost
      | inr hhashed =>
        rw [source.isHashed_iff] at hhashed
        obtain ⟨hall, heq⟩ := h.verified post hpost
        rw [heq, h.source_eq, ← hhashed]
        exact ⟨hall, rfl, rfl⟩

end TelegramClient.Storage.WebUpload
