import TelegramClient.Export.ParseText
import TelegramClient.Export.Escaping

/-! `Output::File` of `export/output/export_output_file.cpp`: a file that is written block by block,
where a block that failed may be tried again. -/

namespace TelegramClient.Export.Output

inductive ResultType where
  | success
  | error
  | fatalError
  deriving DecidableEq

structure Result where
  path : String := ""
  type : ResultType := .success
  deriving DecidableEq

structure Stats where
  files : Nat := 0
  bytes : Int := 0
  deriving DecidableEq

/-- What the system does in one call. A write that fails may leave the first bytes of its block. -/
structure Attempt where
  resized : Bool := true
  opened : Bool := true
  dirExists : Bool := true
  dirMade : Bool := true
  reopened : Bool := true
  written : Option Nat := none
  deriving DecidableEq

/-- `disk` is what is there under the path. -/
structure File where
  path : String
  offset : Int := 0
  isOpen : Bool := false
  stats : Option Stats := none
  inStats : Bool := false
  disk : Option Bytes := none
  deriving DecidableEq

namespace File

variable (f : File) (attempt : Attempt)

def size : Int := f.offset

def error : Result := ⟨f.path, .error⟩

def fatalError : Result := ⟨f.path, .fatalError⟩

/-- The file is opened for appending, or else its directory is made and it is opened then. -/
def openAppend : Result × File :=
  if attempt.opened || (!attempt.dirExists && attempt.dirMade && attempt.reopened) then
    ({}, { f with isOpen := true, disk := some (f.disk.getD []) })
  else (f.error, f)

def reopen : Result × File :=
  if f.isOpen then ({}, f)
  else
    match f.disk with
    | some content =>
      if content.length < f.offset then (f.fatalError, f)
      else if attempt.resized && 0 ≤ f.offset then
        { f with disk := some (content.take f.offset.toNat) }.openAppend attempt
      else (f.error, f)
    | none => if f.offset > 0 then (f.fatalError, f) else f.openAppend attempt

def countFile : File :=
  if f.stats.isSome && !f.inStats then
    { f with inStats := true, stats := f.stats.map fun s => { s with files := s.files + 1 } }
  else f

/-- The block is appended, or a part of it. -/
def write (block : Bytes) : Result × File :=
  let content := f.disk.getD []
  match attempt.written with
  | none =>
    ({}, { f with
      disk := some (content ++ block)
      offset := wrap (f.offset + block.length)
      stats := f.stats.map fun s => { s with bytes := s.bytes + block.length } })
  | some n => (f.error, { f with disk := some (content ++ block.take n) })

def writeBlockAttempt (block : Bytes) : Result × File :=
  let (result, f) := f.countFile.reopen attempt
  if result.type ≠ .success then (result, f)
  else if block = [] then ({}, f)
  else f.write attempt block

def writeBlock (block : Bytes) : Result × File :=
  let (result, f) := f.writeBlockAttempt attempt block
  if result.type ≠ .success then (result, { f with isOpen := false }) else (result, f)

end File

/-! ### Runs -/

/-- A file, and the blocks whose calls returned success. -/
structure Run where
  file : File
  blocks : Bytes := []

structure Call where
  block : Bytes
  attempt : Attempt := {}

def Run.step (s : Run) (call : Call) : Result × Run :=
  let r := s.file.writeBlock call.attempt call.block
  (r.1, ⟨r.2, if r.1.type = .success then s.blocks ++ call.block else s.blocks⟩)

/-- The states of a new file after calls that are allowed, whatever was there under its path. -/
inductive Reachable (allowed : Run → Call → Prop) : Run → Prop
  | start (path : String) (stats : Option Stats) (disk : Option Bytes) :
      Reachable allowed { file := { path, stats, disk } }
  | step {s : Run} {call : Call} (h : Reachable allowed s) (hallowed : allowed s call) :
      Reachable allowed (s.step call).2

/-- The file has the blocks that were written, and its size is their length. -/
def Run.Exact (s : Run) : Prop :=
  s.file.disk = some s.blocks ∧ s.file.size = s.blocks.length

/-- The offset behind the block is an `int`. -/
def Fits (s : Run) (call : Call) : Prop := s.file.offset + call.block.length < 2 ^ 31

instance (s : Run) (call : Call) : Decidable (Fits s call) := inferInstanceAs (Decidable (_ < _))

/-- The offset does not overflow in this call. -/
def Allowed (s : Run) (call : Call) : Prop := (s.step call).1.type = .success → Fits s call

/-! ### What is kept -/

/-- The offset is where the blocks end. Behind them there may be a part of a block that failed, as
long as the file is not open. -/
structure Kept (blocks : Bytes) (f : File) : Prop where
  offset_eq : f.offset = blocks.length
  length_lt : blocks.length < 2 ^ 31
  opened : f.isOpen = true → f.disk = some blocks
  closed : (f.disk = none ∧ blocks = []) ∨ ∃ content, f.disk = some content ∧ blocks <+: content

variable {blocks block : Bytes} {f : File} {attempt : Attempt} {s : Run} {call : Call}

theorem Kept.countFile (h : Kept blocks f) : Kept blocks f.countFile := by
  rw [File.countFile]
  split
  · exact ⟨h.offset_eq, h.length_lt, h.opened, h.closed⟩
  · exact h

theorem Kept.openAppend (h : Kept blocks f) (hexact : f.disk.getD [] = blocks) :
    Kept blocks (f.openAppend attempt).2 ∧
      ((f.openAppend attempt).1.type = .success → (f.openAppend attempt).2.isOpen = true) := by
  rw [File.openAppend]
  split
  · refine ⟨⟨h.offset_eq, h.length_lt, fun _ => ?_, .inr ⟨blocks, ?_, List.prefix_rfl⟩⟩, fun _ => rfl⟩
    · rw [hexact]
    · rw [hexact]
  · exact ⟨h, fun hsuccess => by cases hsuccess⟩

theorem Kept.reopen (h : Kept blocks f) : Kept blocks (f.reopen attempt).2 ∧
    ((f.reopen attempt).1.type = .success → (f.reopen attempt).2.isOpen = true) := by
  rw [File.reopen]
  by_cases hopen : f.isOpen
  · rw [if_pos hopen]
    exact ⟨h, fun _ => hopen⟩
  · rw [if_neg hopen]
    rcases h.closed with ⟨hdisk, hnil⟩ | ⟨content, hdisk, hpre⟩
    · have hoffset : ¬ f.offset > 0 := by
        rw [h.offset_eq, hnil]
        decide
      simp only [hdisk, if_neg hoffset]
      exact h.openAppend (by rw [hdisk, hnil]; rfl)
    · have hlength := hpre.length_le
      have hoffset := h.offset_eq
      simp only [hdisk]
      rw [if_neg (by omega)]
      split
      · have htake : content.take f.offset.toNat = blocks := by
          rw [hoffset, Int.toNat_natCast]
          exact (List.prefix_iff_eq_take.mp hpre).symm
        rw [htake]
        refine Kept.openAppend ⟨hoffset, h.length_lt, fun hisOpen => absurd hisOpen hopen, ?_⟩ rfl
        exact .inr ⟨blocks, rfl, List.prefix_rfl⟩
      · exact ⟨h, fun hsuccess => by cases hsuccess⟩

theorem Kept.close (h : Kept blocks f) : Kept blocks { f with isOpen := false } :=
  ⟨h.offset_eq, h.length_lt, fun hopen => (by cases hopen), h.closed⟩

theorem kept_of_exact (hdisk : f.disk = some blocks) (hoffset : f.offset = blocks.length)
    (hlt : blocks.length < 2 ^ 31) : Kept blocks f :=
  ⟨hoffset, hlt, fun _ => hdisk, .inr ⟨blocks, hdisk, List.prefix_rfl⟩⟩

theorem Kept.write (h : Kept blocks f) (hdisk : f.disk = some blocks) :
    ((f.write attempt block).1.type = .success →
      (f.write attempt block).2.disk = some (blocks ++ block) ∧
        (f.write attempt block).2.offset = wrap (blocks ++ block).length) ∧
    ((f.write attempt block).1.type ≠ .success →
      Kept blocks { (f.write attempt block).2 with isOpen := false }) := by
  rw [File.write, hdisk]
  cases attempt.written with
  | none =>
    refine ⟨fun _ => ⟨rfl, ?_⟩, fun hfail => absurd rfl hfail⟩
    rw [List.length_append, Nat.cast_add, ← h.offset_eq]
  | some n =>
    refine ⟨fun hsuccess => (by cases hsuccess), fun _ => ?_⟩
    exact ⟨h.offset_eq, h.length_lt, fun hopen => (by cases hopen),
      .inr ⟨_, rfl, List.prefix_append blocks _⟩⟩

/-- A block that is written stands behind the others, and one that fails leaves a part of it. -/
theorem Kept.writeBlock (h : Kept blocks f) :
    ((f.writeBlock attempt block).1.type = .success →
      (f.writeBlock attempt block).2.disk = some (blocks ++ block) ∧
        (f.writeBlock attempt block).2.offset = wrap (blocks ++ block).length) ∧
    ((f.writeBlock attempt block).1.type ≠ .success →
      Kept blocks (f.writeBlock attempt block).2) := by
  obtain ⟨hreopen, hopen⟩ := @Kept.reopen _ _ attempt h.countFile
  rw [File.writeBlock, File.writeBlockAttempt]
  generalize f.countFile.reopen attempt = r at hreopen hopen
  obtain ⟨result, g⟩ := r
  by_cases hresult : result.type = .success
  · have hdisk : g.disk = some blocks := hreopen.opened (hopen hresult)
    simp only [hresult, ne_eq, not_true_eq_false, if_false]
    by_cases hnil : block = []
    · have hoffset : g.offset = blocks.length := hreopen.offset_eq
      have hwrap : wrap blocks.length = blocks.length :=
        wrap_of_lt (by omega) (by exact_mod_cast h.length_lt)
      simp [hnil, hdisk, hwrap, hoffset]
    · obtain ⟨hwritten, hfailed⟩ := @Kept.write _ block _ attempt hreopen hdisk
      simp only [hnil, if_false]
      by_cases hwrite : (g.write attempt block).1.type = .success
      · simp only [hwrite, not_true_eq_false, if_false]
        exact ⟨fun _ => hwritten hwrite, fun hfail => hfail.elim⟩
      · simp only [hwrite, not_false_eq_true, if_true]
        exact ⟨fun hsuccess => hsuccess.elim, fun _ => hfailed hwrite⟩
  · simp only [ne_eq, hresult, not_false_eq_true, if_true]
    exact ⟨fun hsuccess => hsuccess.elim, fun _ => hreopen.close⟩

theorem Kept.step (h : Kept s.blocks s.file) (hallowed : Allowed s call) :
    Kept (s.step call).2.blocks (s.step call).2.file := by
  obtain ⟨hwritten, hfailed⟩ := @Kept.writeBlock _ call.block _ call.attempt h
  simp only [Run.step]
  split
  · next hsuccess =>
    obtain ⟨hdisk, hoffset⟩ := hwritten hsuccess
    have hlt : (s.blocks ++ call.block).length < 2 ^ 31 := by
      have hfits := hallowed hsuccess
      rw [Fits, h.offset_eq] at hfits
      rw [List.length_append]
      omega
    rw [wrap_of_lt (by omega) (by exact_mod_cast hlt)] at hoffset
    exact kept_of_exact hdisk hoffset hlt
  · next hfail => exact hfailed hfail

theorem kept_of_reachable (h : Reachable Allowed s) : Kept s.blocks s.file := by
  induction h with
  | start path stats disk =>
    refine ⟨rfl, by simp, fun hopen => (by cases hopen), ?_⟩
    cases disk with
    | none => exact .inl ⟨rfl, rfl⟩
    | some content => exact .inr ⟨content, rfl, List.nil_prefix⟩
  | step _ hallowed ih => exact ih.step hallowed

theorem Run.step_blocks (hsuccess : (s.step call).1.type = .success) :
    (s.step call).2.blocks = s.blocks ++ call.block := if_pos hsuccess

theorem Kept.exact_step (h : Kept s.blocks s.file) (hsuccess : (s.step call).1.type = .success) :
    (s.step call).2.Exact ↔ Fits s call := by
  obtain ⟨hdisk, hoffset⟩ := h.writeBlock.1 hsuccess
  have hblocks := Run.step_blocks hsuccess
  have hfits : Fits s call ↔ (s.blocks ++ call.block).length < 2 ^ 31 := by
    rw [Fits, h.offset_eq, List.length_append]
    omega
  rw [Run.Exact, hblocks, hfits]
  constructor
  · rintro ⟨-, hsize⟩
    have hlt := wrap_lt ((s.blocks ++ call.block).length : Int)
    rw [← hoffset] at hlt
    have hsize' : (s.file.writeBlock call.attempt call.block).2.offset =
      (s.blocks ++ call.block).length := hsize
    omega
  · intro hlt
    rw [wrap_of_lt (by omega) (by exact_mod_cast hlt)] at hoffset
    exact ⟨hdisk, hoffset⟩

/-- After calls in which the offset does not overflow, a call that succeeds leaves exactly the blocks
that were written if and only if the offset does not overflow in it either. -/
theorem writeBlock_exact_iff (h : Reachable Allowed s) (call : Call)
    (hsuccess : (s.step call).1.type = .success) : (s.step call).2.Exact ↔ Fits s call :=
  (kept_of_reachable h).exact_step hsuccess

/-- When nothing fails in the system, a block is written. -/
theorem Kept.step_default (h : Kept s.blocks s.file) (block : Bytes) :
    (s.step ⟨block, {}⟩).1.type = .success := by
  have hreopen : (s.file.countFile.reopen {}).1.type = .success := by
    have hkept := h.countFile
    have hoffset := hkept.offset_eq
    rw [File.reopen]
    split
    · rfl
    · rcases hkept.closed with ⟨hdisk, hnil⟩ | ⟨content, hdisk, hpre⟩
      · have hle : ¬ s.file.countFile.offset > 0 := by
          rw [hoffset, hnil]
          decide
        simp [hdisk, hle, File.openAppend]
      · have hlength := hpre.length_le
        have hle : ¬ (content.length : Int) < s.file.countFile.offset := by omega
        have hpos : 0 ≤ s.file.countFile.offset := by omega
        simp [hdisk, hle, hpos, File.openAppend]
  simp only [Run.step, File.writeBlock, File.writeBlockAttempt, hreopen, ne_eq, not_true_eq_false, if_false]
  by_cases hnil : block = []
  · simp [hnil]
  · simp [hnil, File.write]

def newFile : Run := { file := { path := "result.json" } }

/-- Half of a block is written, and then the block is tried again. -/
theorem writeBlock_exact_retried :
    ((newFile.step ⟨[0x61, 0x62], { written := some 1 }⟩).2.step ⟨[0x61, 0x62], {}⟩).2.Exact :=
  (writeBlock_exact_iff (.step (.start "result.json" none none) fun _ => by decide) _ (by decide)).mpr
    (by decide)

/-- Two blocks of a gigabyte: the offset behind the second is negative. -/
theorem gigabytes_not_exact : ¬ ∀ (s : Run) (call : Call), Reachable (fun _ _ => True) s →
    (s.step call).1.type = .success → (s.step call).2.Exact := by
  intro h
  have hstart : Kept newFile.blocks newFile.file :=
    kept_of_reachable (.start "result.json" none none)
  obtain ⟨block, hlength⟩ : ∃ block : Bytes, block.length = 2 ^ 30 :=
    ⟨List.replicate (2 ^ 30) 0, List.length_replicate⟩
  have hfits : Fits newFile ⟨block, {}⟩ := by
    rw [Fits, hlength]
    decide
  have hsuccess := hstart.step_default block
  have hkept := hstart.step fun _ => hfits
  have hblocks : (newFile.step ⟨block, {}⟩).2.blocks = block := Run.step_blocks hsuccess
  have hexact := h _ ⟨block, {}⟩ (.step (.start "result.json" none none) trivial)
    (hkept.step_default block)
  have hlt := (hkept.exact_step (hkept.step_default block)).mp hexact
  rw [Fits, hkept.offset_eq, hblocks, hlength] at hlt
  omega

end TelegramClient.Export.Output
