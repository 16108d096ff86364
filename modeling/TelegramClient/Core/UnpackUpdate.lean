import TelegramClient.Storage.DataStream

/-! An update is checked and unpacked, and then marked as ready (`core/update_checker.cpp`). The
operations on files may fail, and what is written need not reach the disk. -/

namespace TelegramClient.Core

open DataStream

abbrev Disk (κ : Type) := κ → Option (List UInt8)

/-- What is not under control of the function: the platform, the libraries, the program that runs,
and where the files of an update are in `tupdates/temp`. -/
structure System (κ : Type) where
  hPropsLen : Nat
  charSize : Nat
  readsExecutable : Bool
  appVersion : Int
  cAlphaVersion : Nat
  appBetaVersion : Bool
  sha1 : List UInt8 → List UInt8
  rsaVerify (betaKey : Bool) (hash signature : List UInt8) : Bool
  uncompress (props data : List UInt8) (length : Nat) : Option (List UInt8)
  place : List UInt16 → κ
  versionPlace : κ
  readyPlace : κ

/-- What a write returns, and what of its bytes is on the disk when the file is closed. -/
structure Outcome where
  returned : Int
  reaches : List UInt8 → List UInt8

/-- How the operations of a call end; those on the files of the update by their numbers. -/
structure Faults (κ : Type) where
  input : Option (List UInt8)
  cleared : Disk κ
  tempDirExists : Bool
  mkpath : Nat → Bool
  opens : Nat → Bool
  write : Nat → Outcome
  versionOpens : Bool
  versionReaches : List UInt8 → List UInt8
  readyOpens : Bool
  readyWrite : Outcome

def hSigLen : Nat := 128

def hShaLen : Nat := 20

def hOriginalSizeLen : Nat := 4

structure Header where
  version : UInt32
  alphaVersion : UInt64
  filesCount : UInt32

structure PackedFile where
  relativeName : List UInt16
  fileInnerData : List UInt8
  executable : Bool

variable {κ : Type} [DecidableEq κ] (sys : System κ) (faults : Faults κ)

def System.hSize : Nat := hSigLen + hShaLen + sys.hPropsLen + hOriginalSizeLen

def System.goodSha1 (compressed : List UInt8) : Bool :=
  (compressed.drop hSigLen).take hShaLen = sys.sha1 (compressed.drop (hSigLen + hShaLen))

/-- With the key for this program, or else with the other one. -/
def System.goodSignature (compressed : List UInt8) : Bool :=
  let hash := (compressed.drop hSigLen).take hShaLen
  let signature := compressed.take hSigLen
  sys.rsaVerify sys.appBetaVersion hash signature || sys.rsaVerify (!sys.appBetaVersion) hash signature

def System.uncompressed (compressed : List UInt8) : Option (List UInt8) :=
  let props := (compressed.drop (hSigLen + hShaLen)).take sys.hPropsLen
  let length := leValue ((compressed.drop (hSigLen + hShaLen + sys.hPropsLen)).take hOriginalSizeLen)
  -- a length from 2 ^ 31 on is negative, and no bytes
  sys.uncompress props (compressed.drop sys.hSize) (if length < 2 ^ 31 then length else 0)

def readAlphaVersion (version : UInt32) : Reader UInt64 :=
  if version = 0x7FFFFFFF then readUInt64 else pure 0

def System.readHeader : Reader Header := do
  let version ← readUInt32
  let ok ← status
  stopUnless ok
  let alphaVersion ← readAlphaVersion version
  let ok ← status
  stopUnless ok
  stopUnless (if version = 0x7FFFFFFF then
      !(sys.cAlphaVersion = 0 || alphaVersion.toNat ≤ sys.cAlphaVersion)
    else !decide (version.toInt32.toInt ≤ sys.appVersion))
  let filesCount ← readUInt32
  let ok ← status
  stopUnless ok
  stopUnless (filesCount ≠ 0)
  return ⟨version, alphaVersion, filesCount⟩

def System.readFile : Reader PackedFile := do
  let relativeName ← readString
  let fileSize ← readUInt32
  let fileInnerData ← readByteArray
  let executable ← if sys.readsExecutable then (· != 0) <$> readUInt8 else pure false
  let ok ← status
  stopUnless ok
  stopUnless (fileSize = UInt32.ofNat fileInnerData.length)
  return ⟨relativeName, fileInnerData, executable⟩

def put (disk : Disk κ) (place : κ) (bytes : List UInt8) : Disk κ :=
  Function.update disk place (some bytes)

/-- The loop over the files. A file is written with what its write leaves on the disk. -/
def unpackFiles : Nat → Nat → Source → Disk κ → Bool × Disk κ
  | _, 0, _, disk => (true, disk)
  | i, n + 1, s, disk =>
    match sys.readFile s with
    | none => (false, disk)
    | some (file, s) =>
      if !faults.mkpath i then (false, disk)
      else if !faults.opens i then (false, disk)
      else
        let disk := put disk (sys.place file.relativeName)
          ((faults.write i).reaches file.fileInnerData)
        if (faults.write i).returned ≠ file.fileInnerData.length then (false, disk)
        else unpackFiles (i + 1) n s disk

def versionString (version : Nat) : String :=
  if version % 1000 ≠ 0 then
    toString (version / 1000000) ++ "." ++ toString (version % 1000000 / 1000) ++ "." ++
      toString (version % 1000)
  else toString (version / 1000000) ++ "." ++ toString (version % 1000000 / 1000)

/-- The bytes of `tdata/version`. -/
def System.versionBytes (header : Header) : List UInt8 :=
  let text := (versionString header.version.toNat).toList.flatMap fun c => leBytes sys.charSize c.toNat
  leBytes 4 header.version.toNat ++
    if header.version = 0x7FFFFFFF then leBytes 8 header.alphaVersion.toNat
    else leBytes 4 text.length ++ text

/-- Returns the result and the files of the update as they are on the disk. -/
def unpackUpdate (before : Disk κ) : Bool × Disk κ :=
  match faults.input with
  | none => (false, before)
  | some compressed =>
    if compressed.length ≤ sys.hSize then (false, before)
    else
      let disk := faults.cleared
      if faults.tempDirExists || (disk sys.readyPlace).isSome then (false, disk)
      else if !sys.goodSha1 compressed then (false, disk)
      else if !sys.goodSignature compressed then (false, disk)
      else
        match sys.uncompressed compressed with
        | none => (false, disk)
        | some uncompressed =>
          match sys.readHeader ⟨uncompressed, true⟩ with
          | none => (false, disk)
          | some (header, s) =>
            match unpackFiles sys faults 0 header.filesCount.toNat s disk with
            | (false, disk) => (false, disk)
            | (true, disk) =>
              if !faults.versionOpens then (false, disk)
              else
                let disk := put disk sys.versionPlace
                  (faults.versionReaches (sys.versionBytes header))
                if !faults.readyOpens then (false, disk)
                else
                  -- an error is returned as -1, which is no zero
                  let disk := put disk sys.readyPlace (faults.readyWrite.reaches [0x31])
                  (faults.readyWrite.returned ≠ 0, disk)

/-! ### What an update is -/

/-- The files that are read one after another, and whether there are all of them. -/
def System.readFiles : Nat → Source → List PackedFile × Bool
  | 0, _ => ([], true)
  | n + 1, s =>
    match sys.readFile s with
    | none => ([], false)
    | some (file, s) =>
      let rest := System.readFiles n s
      (file :: rest.1, rest.2)

/-- The version of a header is greater than that of the program. -/
def System.Greater (header : Header) : Prop :=
  if header.version = 0x7FFFFFFF then
    sys.cAlphaVersion ≠ 0 ∧ sys.cAlphaVersion < header.alphaVersion.toNat
  else sys.appVersion < header.version.toInt32.toInt

/-- The package passed its checks, and all of it is on the disk. -/
def Complete (disk : Disk κ) : Prop :=
  ∃ compressed uncompressed header s files, faults.input = some compressed ∧
    sys.goodSha1 compressed ∧ sys.goodSignature compressed ∧
    sys.uncompressed compressed = some uncompressed ∧
    sys.readHeader ⟨uncompressed, true⟩ = some (header, s) ∧ sys.Greater header ∧
    sys.readFiles header.filesCount.toNat s = (files, true) ∧
    (∀ file ∈ files, disk (sys.place file.relativeName) = some file.fileInnerData) ∧
    disk sys.versionPlace = some (sys.versionBytes header)

/-- The marker is there exactly if the function returns true, and only for a complete update. -/
def Right (result : Bool × Disk κ) : Prop :=
  (result.1 = true ↔ (result.2 sys.readyPlace).isSome) ∧
    ((result.2 sys.readyPlace).isSome → Complete sys faults result.2)

/-! ### How far a call comes -/

/-- The writes of the files from the `i`-th on, up to the first operation that fails. -/
def fileWrites : Nat → List PackedFile → List (κ × List UInt8)
  | _, [] => []
  | i, file :: files =>
    if faults.mkpath i && faults.opens i then
      (sys.place file.relativeName, (faults.write i).reaches file.fileInnerData) ::
        if (faults.write i).returned = file.fileInnerData.length then fileWrites (i + 1) files else []
    else []

def allWritten : Nat → List PackedFile → Bool
  | _, [] => true
  | i, file :: files => faults.mkpath i && faults.opens i &&
    decide ((faults.write i).returned = file.fileInnerData.length) && allWritten (i + 1) files

inductive Stage (κ : Type) where
  | notRead
  | notCleared
  | rejected
  | stopped (writes : List (κ × List UInt8))
  | marked (header : Header) (files : List PackedFile) (writes : List (κ × List UInt8))

/-- What an update has, if it passes its checks. -/
def System.package (compressed : List UInt8) : Option (Header × List PackedFile × Bool) :=
  if sys.goodSha1 compressed && sys.goodSignature compressed then do
    let uncompressed ← sys.uncompressed compressed
    let (header, s) ← sys.readHeader ⟨uncompressed, true⟩
    return (header, sys.readFiles header.filesCount.toNat s)
  else none

def stage : Stage κ :=
  match faults.input with
  | none => .notRead
  | some compressed =>
    if compressed.length ≤ sys.hSize then .notRead
    else if faults.tempDirExists || (faults.cleared sys.readyPlace).isSome then .notCleared
    else
      match sys.package compressed with
      | none => .rejected
      | some (header, files, whole) =>
        let writes := fileWrites sys faults 0 files
        if allWritten faults 0 files && whole && faults.versionOpens then
          let writes := writes ++
            [(sys.versionPlace, faults.versionReaches (sys.versionBytes header))]
          if faults.readyOpens then
            .marked header files
              (writes ++ [(sys.readyPlace, faults.readyWrite.reaches [0x31])])
          else .stopped writes
        else .stopped writes

/-- The last one of some writes to a place. -/
def lastWrite (writes : List (κ × List UInt8)) (place : κ) : Option (List UInt8) :=
  (writes.reverse.find? fun write => write.1 = place).map Prod.snd

/-- No marker is left from before, none is written as one of the files of an update that fails,
and at the end all bytes are on the disk and the write of the marker does not return zero. -/
def Sound (before : Disk κ) : Prop :=
  match stage sys faults with
  | .notRead => before sys.readyPlace = none
  | .notCleared => faults.cleared sys.readyPlace = none
  | .rejected => True
  | .stopped writes => ∀ write ∈ writes, write.1 ≠ sys.readyPlace
  | .marked header files writes => faults.readyWrite.returned ≠ 0 ∧
      (∀ file ∈ files, lastWrite writes (sys.place file.relativeName) = some file.fileInnerData) ∧
      lastWrite writes sys.versionPlace = some (sys.versionBytes header)

/-! ### Proofs -/

def putAll (disk : Disk κ) (writes : List (κ × List UInt8)) : Disk κ :=
  writes.foldl (fun disk write => put disk write.1 write.2) disk

variable {sys faults} {disk : Disk κ} {writes : List (κ × List UInt8)} {place : κ}

theorem putAll_append (disk : Disk κ) (writes writes' : List (κ × List UInt8)) :
    putAll disk (writes ++ writes') = putAll (putAll disk writes) writes' := List.foldl_append

theorem putAll_eq (disk : Disk κ) (writes : List (κ × List UInt8)) (place : κ) :
    putAll disk writes place = (lastWrite writes place).or (disk place) := by
  induction writes using List.reverseRecOn with
  | nil => rfl
  | append_singleton writes write ih =>
    rw [putAll_append]
    change Function.update (putAll disk writes) write.1 (some write.2) place = _
    by_cases hplace : write.1 = place
    · subst hplace
      simp [lastWrite]
    · rw [Function.update_of_ne (Ne.symm hplace), ih]
      simp [lastWrite, hplace]

theorem lastWrite_isSome_iff : (lastWrite writes place).isSome ↔ ∃ write ∈ writes, write.1 = place := by
  simp [lastWrite]

/-- The loop writes the files up to the first failure. -/
theorem unpackFiles_eq (i n : Nat) (s : Source) (disk : Disk κ) :
    unpackFiles sys faults i n s disk =
      (allWritten faults i (sys.readFiles n s).1 && (sys.readFiles n s).2,
        putAll disk (fileWrites sys faults i (sys.readFiles n s).1)) := by
  induction n generalizing i s disk with
  | zero => rfl
  | succ n ih =>
    rw [unpackFiles, System.readFiles]
    cases hfile : sys.readFile s with
    | none => rfl
    | some read =>
      obtain ⟨file, s⟩ := read
      dsimp only
      rw [allWritten, fileWrites]
      by_cases hmkpath : faults.mkpath i
      · by_cases hopens : faults.opens i
        · by_cases hreturned : (faults.write i).returned = file.fileInnerData.length
          · simp [hmkpath, hopens, hreturned, ih, putAll]
          · simp [hmkpath, hopens, hreturned, putAll]
        · simp [hmkpath, hopens, putAll]
      · simp [hmkpath, putAll]

/-- What is read by two readers, one after the other. -/
theorem exists_of_bind {α β : Type} {x : Reader α} {f : α → Reader β} {s : Source} {r : β × Source}
    (h : (x >>= f) s = some r) : ∃ a s', x s = some (a, s') ∧ f a s' = some r := by
  cases hx : x s with
  | none =>
    rw [bind_none hx] at h
    cases h
  | some read =>
    rw [bind_some (show x s = some (read.1, read.2) from hx)] at h
    exact ⟨read.1, read.2, rfl, h⟩

theorem of_stopUnless {p : Bool} {s s' : Source} {u : Unit} (h : stopUnless p s = some (u, s')) :
    p = true := by
  by_contra hp
  rw [stopUnless, if_neg hp] at h
  cases h

omit [DecidableEq κ] in
theorem greater_of_readHeader {s s' : Source} {header : Header}
    (h : sys.readHeader s = some (header, s')) : sys.Greater header := by
  obtain ⟨version, s₁, -, h⟩ := exists_of_bind h
  obtain ⟨_, s₂, -, h⟩ := exists_of_bind h
  obtain ⟨_, s₃, -, h⟩ := exists_of_bind h
  obtain ⟨alphaVersion, s₄, -, h⟩ := exists_of_bind h
  obtain ⟨_, s₅, -, h⟩ := exists_of_bind h
  obtain ⟨_, s₆, -, h⟩ := exists_of_bind h
  obtain ⟨_, s₇, hgreater, h⟩ := exists_of_bind h
  obtain ⟨filesCount, s₈, -, h⟩ := exists_of_bind h
  obtain ⟨_, s₉, -, h⟩ := exists_of_bind h
  obtain ⟨_, s₁₀, -, h⟩ := exists_of_bind h
  obtain ⟨_, s₁₁, -, h⟩ := exists_of_bind h
  have hgreater := of_stopUnless hgreater
  obtain ⟨rfl, -⟩ := Prod.mk.inj (Option.some.inj h)
  rw [System.Greater]
  by_cases halpha : version = 0x7FFFFFFF
  · rw [if_pos halpha] at hgreater ⊢
    simpa using hgreater
  · rw [if_neg halpha] at hgreater ⊢
    simpa using hgreater

/-- The result and the files, by how far the call comes. -/
theorem unpackUpdate_eq (before : Disk κ) : unpackUpdate sys faults before =
    match stage sys faults with
    | .notRead => (false, before)
    | .notCleared => (false, faults.cleared)
    | .rejected => (false, faults.cleared)
    | .stopped writes => (false, putAll faults.cleared writes)
    | .marked _ _ writes =>
      (decide (faults.readyWrite.returned ≠ 0), putAll faults.cleared writes) := by
  rw [unpackUpdate, stage]
  cases faults.input with
  | none => rfl
  | some compressed =>
    dsimp only
    by_cases hshort : compressed.length ≤ sys.hSize
    · rw [if_pos hshort, if_pos hshort]
    rw [if_neg hshort, if_neg hshort]
    by_cases hcleared : faults.tempDirExists || (faults.cleared sys.readyPlace).isSome
    · rw [if_pos hcleared, if_pos hcleared]
    rw [if_neg hcleared, if_neg hcleared, System.package]
    cases hsha : sys.goodSha1 compressed with
    | false => rfl
    | true =>
      cases hsignature : sys.goodSignature compressed with
      | false => rfl
      | true =>
        cases huncompressed : sys.uncompressed compressed with
        | none => rfl
        | some uncompressed =>
          cases hheader : sys.readHeader ⟨uncompressed, true⟩ with
          | none => simp [hheader]
          | some read =>
            obtain ⟨header, s⟩ := read
            simp only [hheader, unpackFiles_eq, Bool.not_true, Bool.false_eq_true, if_false,
              Bool.and_self, if_true, Option.bind_eq_bind, Option.bind_some, Option.pure_def]
            generalize sys.readFiles header.filesCount.toNat s = read
            obtain ⟨files, whole⟩ := read
            cases hwritten : allWritten faults 0 files && whole with
            | false => simp
            | true =>
              cases hversion : faults.versionOpens with
              | false => simp
              | true =>
                cases hready : faults.readyOpens with
                | false => simp [putAll]
                | true => simp [putAll]

omit [DecidableEq κ] in
theorem mem_fileWrites (sys : System κ) {i : Nat} {files : List PackedFile} (hall : allWritten faults i files)
    {file : PackedFile} (hfile : file ∈ files) :
    ∃ write ∈ fileWrites sys faults i files, write.1 = sys.place file.relativeName := by
  induction files generalizing i with
  | nil => cases hfile
  | cons first files ih =>
    simp only [allWritten, Bool.and_eq_true, decide_eq_true_eq] at hall
    obtain ⟨⟨⟨hmkpath, hopens⟩, hreturned⟩, hrest⟩ := hall
    rw [fileWrites, hmkpath, hopens, Bool.and_self, if_pos rfl, if_pos hreturned]
    rcases List.mem_cons.mp hfile with rfl | hmem
    · exact ⟨_, List.mem_cons_self, rfl⟩
    · obtain ⟨write, hwrite, hplace⟩ := ih hrest hmem
      exact ⟨write, List.mem_cons_of_mem _ hwrite, hplace⟩

/-- What a call has found when it is past the loop and opens the marker. -/
structure Marked (sys : System κ) (faults : Faults κ) (header : Header) (files : List PackedFile)
    (writes : List (κ × List UInt8)) : Prop where
  found : ∃ compressed uncompressed s, faults.input = some compressed ∧
    sys.goodSha1 compressed ∧ sys.goodSignature compressed ∧
    sys.uncompressed compressed = some uncompressed ∧
    sys.readHeader ⟨uncompressed, true⟩ = some (header, s) ∧
    sys.readFiles header.filesCount.toNat s = (files, true)
  allWritten : allWritten faults 0 files
  writes_eq : writes = fileWrites sys faults 0 files ++
    [(sys.versionPlace, faults.versionReaches (sys.versionBytes header))] ++
    [(sys.readyPlace, faults.readyWrite.reaches [0x31])]

omit [DecidableEq κ] in
/-- From the directory being cleared on, there is no marker but one that is written. -/
theorem stage_cases (sys : System κ) (faults : Faults κ) :
    stage sys faults = .notRead ∨ stage sys faults = .notCleared ∨
    faults.cleared sys.readyPlace = none ∧ (stage sys faults = .rejected ∨
      (∃ writes, stage sys faults = .stopped writes) ∨
      ∃ header files writes, stage sys faults = .marked header files writes ∧
        Marked sys faults header files writes) := by
  rw [stage]
  cases hinput : faults.input with
  | none => exact .inl rfl
  | some compressed =>
    dsimp only
    by_cases hshort : compressed.length ≤ sys.hSize
    · rw [if_pos hshort]
      exact .inl rfl
    rw [if_neg hshort]
    by_cases hcleared : faults.tempDirExists || (faults.cleared sys.readyPlace).isSome
    · rw [if_pos hcleared]
      exact .inr (.inl rfl)
    rw [if_neg hcleared]
    have hnone : faults.cleared sys.readyPlace = none := by
      simp only [Bool.or_eq_true, not_or, Option.not_isSome_iff_eq_none] at hcleared
      exact hcleared.2
    refine .inr (.inr ⟨hnone, ?_⟩)
    cases hpackage : sys.package compressed with
    | none => exact .inl rfl
    | some read =>
      obtain ⟨header, files, whole⟩ := read
      dsimp only
      by_cases hall : allWritten faults 0 files && whole && faults.versionOpens
      · rw [if_pos hall]
        by_cases hready : faults.readyOpens
        · rw [if_pos hready]
          refine .inr (.inr ⟨_, _, _, rfl, ?_, ?_, rfl⟩)
          · rw [System.package] at hpackage
            split at hpackage
            · rename_i hgood
              rw [Bool.and_eq_true] at hgood
              obtain ⟨uncompressed, huncompressed, hpackage⟩ := Option.bind_eq_some_iff.mp hpackage
              obtain ⟨⟨header', s⟩, hheader, hpackage⟩ := Option.bind_eq_some_iff.mp hpackage
              obtain ⟨rfl, hfiles⟩ := Prod.mk.inj (Option.some.inj hpackage)
              simp only [Bool.and_eq_true] at hall
              rw [hall.1.2] at hfiles
              exact ⟨compressed, uncompressed, s, hinput, hgood.1, hgood.2, huncompressed, hheader,
                hfiles⟩
            · cases hpackage
          · simp only [Bool.and_eq_true] at hall
            exact hall.1.1
        · rw [if_neg hready]
          exact .inr (.inl ⟨_, rfl⟩)
      · rw [if_neg hall]
        exact .inr (.inl ⟨_, rfl⟩)

omit [DecidableEq κ] in
theorem right_false_iff (disk : Disk κ) :
    Right sys faults (false, disk) ↔ disk sys.readyPlace = none := by
  rw [Right, ← Option.not_isSome_iff_eq_none]
  constructor
  · exact fun h hsome => Bool.false_ne_true (h.1.mpr hsome)
  · exact fun h => ⟨⟨fun hfalse => absurd hfalse Bool.false_ne_true, fun hsome => absurd hsome h⟩,
      fun hsome => absurd hsome h⟩

/-- The update is complete exactly if the last write to every place leaves its bytes. -/
theorem Marked.complete_iff {header : Header} {files : List PackedFile}
    (h : Marked sys faults header files writes) :
    Complete sys faults (putAll faults.cleared writes) ↔
      (∀ file ∈ files, lastWrite writes (sys.place file.relativeName) = some file.fileInnerData) ∧
      lastWrite writes sys.versionPlace = some (sys.versionBytes header) := by
  have hdisk : ∀ place, (∃ write ∈ writes, write.1 = place) →
      putAll faults.cleared writes place = lastWrite writes place := by
    intro place hwrite
    rw [putAll_eq]
    obtain ⟨bytes, hbytes⟩ := Option.isSome_iff_exists.mp (lastWrite_isSome_iff.mpr hwrite)
    rw [hbytes]
    rfl
  have hfile : ∀ file ∈ files, putAll faults.cleared writes (sys.place file.relativeName) =
      lastWrite writes (sys.place file.relativeName) := by
    intro file hmem
    obtain ⟨write, hwrite, hplace⟩ := mem_fileWrites sys h.allWritten hmem
    refine hdisk _ ⟨write, ?_, hplace⟩
    rw [h.writes_eq]
    exact List.mem_append_left _ (List.mem_append_left _ hwrite)
  have hversion : putAll faults.cleared writes sys.versionPlace =
      lastWrite writes sys.versionPlace := by
    refine hdisk _ ⟨(sys.versionPlace, faults.versionReaches (sys.versionBytes header)), ?_, rfl⟩
    rw [h.writes_eq]
    simp
  obtain ⟨compressed, uncompressed, s, hinput, hsha, hsignature, huncompressed, hheader, hfiles⟩ :=
    h.found
  constructor
  · rintro ⟨compressed', uncompressed', header', s', files', hinput', -, -, huncompressed', hheader',
      -, hfiles', hall, hbytes⟩
    rw [hinput] at hinput'
    obtain rfl := Option.some.inj hinput'
    rw [huncompressed] at huncompressed'
    obtain rfl := Option.some.inj huncompressed'
    rw [hheader] at hheader'
    obtain ⟨rfl, rfl⟩ := Prod.mk.inj (Option.some.inj hheader')
    rw [hfiles] at hfiles'
    obtain ⟨rfl, -⟩ := Prod.mk.inj hfiles'
    rw [hversion] at hbytes
    exact ⟨fun file hmem => (hfile file hmem).symm.trans (hall file hmem), hbytes⟩
  · rintro ⟨hall, hbytes⟩
    refine ⟨compressed, uncompressed, header, s, files, hinput, hsha, hsignature, huncompressed,
      hheader, greater_of_readHeader hheader, hfiles, ?_, hversion.trans hbytes⟩
    exact fun file hmem => (hfile file hmem).trans (hall file hmem)

theorem unpackUpdate_right_iff (sys : System κ) (faults : Faults κ) (before : Disk κ) :
    Right sys faults (unpackUpdate sys faults before) ↔ Sound sys faults before := by
  rw [unpackUpdate_eq, Sound]
  rcases stage_cases sys faults with hstage | hstage | ⟨hnone, hstage⟩
  · rw [hstage]
    exact right_false_iff _
  · rw [hstage]
    exact right_false_iff _
  rcases hstage with hstage | ⟨writes, hstage⟩ | ⟨header, files, writes, hstage, hmarked⟩
  · rw [hstage]
    exact (right_false_iff _).trans (iff_true_intro hnone)
  · rw [hstage]
    refine (right_false_iff _).trans ?_
    rw [putAll_eq, hnone, Option.or_none, ← Option.not_isSome_iff_eq_none, lastWrite_isSome_iff]
    simp only [not_exists, not_and, ne_eq]
  · rw [hstage]
    have hready : (putAll faults.cleared writes sys.readyPlace).isSome := by
      have hwrite : (lastWrite writes sys.readyPlace).isSome := by
        refine lastWrite_isSome_iff.mpr
          ⟨(sys.readyPlace, faults.readyWrite.reaches [0x31]), ?_, rfl⟩
        rw [hmarked.writes_eq]
        simp
      rw [putAll_eq, Option.isSome_or, hwrite, Bool.true_or]
    simp only [Right, hready, true_imp_iff, iff_true, decide_eq_true_eq, hmarked.complete_iff]

omit [DecidableEq κ] in
theorem versionBytes_pos (sys : System κ) (header : Header) :
    0 < (sys.versionBytes header).length := by
  rw [System.versionBytes, List.length_append, length_leBytes]
  omega

/-- An update of one file, where no bytes of `tdata/version` get to the disk: it is ready. -/
theorem ready_without_version :
    let packed : List UInt8 := [0, 0, 0, 2, 0, 0, 0, 1, 0, 0, 0, 2, 0, 65, 0, 0, 0, 1, 0, 0, 0, 1, 7, 0]
    let sys : System Nat := ⟨0, 4, true, 1, 0, false, fun _ => List.replicate 20 0, fun _ _ _ => true,
      fun _ _ _ => some packed, fun name => name.length + 2, 0, 1⟩
    let faults : Faults Nat := ⟨some (List.replicate 153 0), fun _ => none, false, fun _ => true,
      fun _ => true, fun _ => ⟨1, id⟩, true, fun _ => [], true, ⟨1, id⟩⟩
    (unpackUpdate sys faults fun _ => none).1 = true ∧
      (unpackUpdate sys faults fun _ => none).2 sys.versionPlace = some [] ∧
      ¬Right sys faults (unpackUpdate sys faults fun _ => none) := by
  intro packed sys faults
  have hresult : (unpackUpdate sys faults fun _ => none).1 = true := by
    decide +kernel
  have hversion : (unpackUpdate sys faults fun _ => none).2 sys.versionPlace = some [] := by
    decide +kernel
  refine ⟨hresult, hversion, fun hright => ?_⟩
  obtain ⟨_, _, header, _, _, _, _, _, _, _, _, _, _, hbytes⟩ := hright.2 (hright.1.mp hresult)
  have hnil := Option.some.inj (hversion.symm.trans hbytes)
  have hpos := versionBytes_pos sys header
  rw [← hnil] at hpos
  exact absurd hpos (Nat.lt_irrefl 0)

end TelegramClient.Core
