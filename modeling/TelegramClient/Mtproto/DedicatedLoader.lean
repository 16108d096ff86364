import Mathlib

/-! An update that is loaded in parts: the parts are requested several at a time and
written in the order of their offsets. -/

namespace TelegramClient.Mtproto

namespace DedicatedLoader

def kChunkSize : Nat := 128 * 1024

def kMaxFileSize : Nat := 256 * 1024 * 1024

def kRequestsCount : Nat := 2

/-- A part that is requested; it has no bytes before its answer. -/
structure Request where
  offset : Nat
  bytes : List UInt8 := []
  deriving DecidableEq, Repr

end DedicatedLoader

/-- The loader with its output file; `ready` and `failed` count what was reported. -/
structure DedicatedLoader where
  size : Nat
  output : List UInt8 := []
  outputOpen : Bool := true
  alreadySize : Nat := 0
  totalSize : Nat := 0
  requests : List DedicatedLoader.Request := []
  offset : Nat := 0
  ready : Nat := 0
  failed : Nat := 0
  deriving DecidableEq, Repr

namespace DedicatedLoader

def threadSafeFailed (l : DedicatedLoader) : DedicatedLoader := { l with failed := l.failed + 1 }

def writeChunk (l : DedicatedLoader) (data : List UInt8) (totalSize : Nat) : DedicatedLoader :=
  if 0 < data.length ∧ ¬l.outputOpen then l.threadSafeFailed
  else
    let total := if l.totalSize = 0 then totalSize else l.totalSize
    let already := l.alreadySize + data.length
    let l := { l with output := l.output ++ data, alreadySize := already, totalSize := total }
    if 0 < total ∧ total ≤ already then { l with outputOpen := false, ready := l.ready + 1 } else l

def sendRequest (l : DedicatedLoader) : DedicatedLoader :=
  if kRequestsCount ≤ l.requests.length ∨ l.size ≤ l.offset then l
  else
    { l with
      requests := l.requests ++ [{ offset := l.offset }]
      offset := l.offset + kChunkSize }

/-- What is kept of a file that is already there: whole parts, if any. -/
def validateOutput (found : Option (List UInt8)) : List UInt8 :=
  match found with
  | none => []
  | some bytes =>
    if bytes.length < kChunkSize ∨ kMaxFileSize < bytes.length then []
    else bytes.take (bytes.length - bytes.length % kChunkSize)

def start (size : Nat) (found : Option (List UInt8)) : DedicatedLoader :=
  let output := validateOutput found
  let l : DedicatedLoader :=
    { size, output, alreadySize := output.length, offset := output.length }
  (l.writeChunk [] size).sendRequest

/-- Writes the parts in front that have their bytes. -/
def writeReady (l : DedicatedLoader) : List Request → DedicatedLoader
  | [] => { l with requests := [] }
  | request :: requests =>
    if request.bytes = [] then { l with requests := request :: requests }
    else writeReady (l.writeChunk request.bytes l.size) requests

def setBytes (requests : List Request) (offset : Nat) (bytes : List UInt8) :
    List Request :=
  match requests with
  | [] => []
  | request :: requests =>
    if request.offset = offset then { request with bytes } :: requests
    else request :: setBytes requests offset bytes

/-- An answer to the request of a part; a redirect is `none`. -/
def gotPart (l : DedicatedLoader) (offset : Nat) (result : Option (List UInt8)) :
    DedicatedLoader :=
  match result with
  | none => l.threadSafeFailed
  | some [] => l.threadSafeFailed
  | some bytes => (l.writeReady (setBytes l.requests offset bytes)).sendRequest

/-- The steps of a loader whose server holds these parts: the timer, an answer to any
request that has none, with or without the part, and an error. -/
inductive Step (part : Nat → List UInt8) : DedicatedLoader → DedicatedLoader → Prop where
  | timer (l : DedicatedLoader) : Step part l l.sendRequest
  | answer (l : DedicatedLoader) (request : Request) (hmem : request ∈ l.requests)
      (hwaits : request.bytes = []) :
      Step part l (l.gotPart request.offset (some (part request.offset)))
  | redirect (l : DedicatedLoader) (request : Request) (hmem : request ∈ l.requests)
      (hwaits : request.bytes = []) : Step part l (l.gotPart request.offset none)
  | empty (l : DedicatedLoader) (request : Request) (hmem : request ∈ l.requests)
      (hwaits : request.bytes = []) : Step part l (l.gotPart request.offset (some []))
  | fail (l : DedicatedLoader) : Step part l l.threadSafeFailed

/-- The first parts after an offset, one after another. -/
def partsFrom (part : Nat → List UInt8) (offset count : Nat) : List UInt8 :=
  (List.range count).flatMap fun i => part (offset + i * kChunkSize)

/-! ### The state between two steps -/

section

variable {part : Nat → List UInt8} {l l' : DedicatedLoader}

/-- The requests wait for the parts from an offset on. -/
def Queued (part : Nat → List UInt8) (size : Nat) : Nat → List Request → Prop
  | _, [] => True
  | offset, request :: requests =>
    request.offset = offset ∧ offset < size ∧
      (request.bytes = [] ∨ request.bytes = part offset) ∧
      Queued part size (offset + kChunkSize) requests

/-- The output holds the first `count` parts behind what was there, and is reported
ready when it is whole. -/
structure Written (part : Nat → List UInt8) (existing : List UInt8) (full count : Nat)
    (l : DedicatedLoader) : Prop where
  size : l.size = full
  output : l.output = existing ++ partsFrom part existing.length count
  already : l.alreadySize = l.output.length
  length : count = 0 ∨ l.alreadySize = min full (existing.length + count * kChunkSize)
  fits : ∀ i < count, existing.length + i * kChunkSize < full
  total : l.totalSize = full
  ready : l.ready = if full ≤ l.alreadySize then 1 else 0
  outputOpen : l.outputOpen = !decide (full ≤ l.alreadySize)

/-- The parts in front of the first that waits are written. -/
structure Loading (part : Nat → List UInt8) (existing : List UInt8) (full count : Nat)
    (l : DedicatedLoader) : Prop where
  written : Written part existing full count l
  queued : Queued part full (existing.length + count * kChunkSize) l.requests
  offset : l.offset = existing.length + (count + l.requests.length) * kChunkSize
  front : ∀ request ∈ l.requests.head?, request.bytes = []

variable {existing : List UInt8} {full count : Nat} {requests : List Request}

theorem partsFrom_succ (offset count : Nat) : partsFrom part offset (count + 1) =
    partsFrom part offset count ++ part (offset + count * kChunkSize) := by
  rw [partsFrom, List.range_succ, List.flatMap_append, List.flatMap_singleton]
  rfl

theorem Written.next (h : Written part existing full count l)
    (hlt : existing.length + count * kChunkSize < full) :
    l.alreadySize = existing.length + count * kChunkSize := by
  rcases h.length with rfl | hlength
  · rw [h.already, h.output, partsFrom, Nat.zero_mul]
    simp
  · rw [hlength]
    omega

theorem Written.writeChunk (h : Written part existing full count l)
    (hpart : ∀ offset < full, (part offset).length = min kChunkSize (full - offset))
    (hlt : existing.length + count * kChunkSize < full) :
    Written part existing full (count + 1)
        (l.writeChunk (part (existing.length + count * kChunkSize)) l.size) ∧
      (l.writeChunk (part (existing.length + count * kChunkSize)) l.size).offset = l.offset := by
  have hnext := h.next hlt
  have hlength := hpart _ hlt
  have hopen : l.outputOpen = true := by
    rw [h.outputOpen, decide_eq_false (by omega)]
    rfl
  have hready : l.ready = 0 := by rw [h.ready, if_neg (by omega)]
  have hfull : 0 < full := by omega
  have hout : l.output ++ part (existing.length + count * kChunkSize) =
      existing ++ partsFrom part existing.length (count + 1) := by
    rw [partsFrom_succ, ← List.append_assoc, ← h.output]
  have halready : l.alreadySize + (part (existing.length + count * kChunkSize)).length =
      min full (existing.length + (count + 1) * kChunkSize) := by
    rw [hnext, hlength, Nat.add_mul, Nat.one_mul]
    omega
  have hfits : ∀ i < count + 1, existing.length + i * kChunkSize < full := fun i hi => by
    rcases Nat.lt_or_eq_of_le (Nat.le_of_lt_succ hi) with hlo | rfl
    · exact h.fits i hlo
    · exact hlt
  have hsize : l.alreadySize + (part (existing.length + count * kChunkSize)).length =
      (l.output ++ part (existing.length + count * kChunkSize)).length := by
    rw [List.length_append, h.already]
  rw [DedicatedLoader.writeChunk, if_neg (by simp [hopen]), h.total, h.size,
    if_neg (Nat.ne_of_gt hfull)]
  generalize part (existing.length + count * kChunkSize) = bytes at hout halready hsize ⊢
  by_cases hdone : full ≤ l.alreadySize + bytes.length
  · rw [if_pos ⟨hfull, hdone⟩]
    refine ⟨⟨rfl, hout, hsize, .inr halready, hfits, rfl, ?_, ?_⟩, rfl⟩
    · rw [if_pos hdone]
      exact congrArg Nat.succ hready
    · rw [decide_eq_true hdone]
      rfl
  · rw [if_neg fun hboth => hdone hboth.2]
    refine ⟨⟨rfl, hout, hsize, .inr halready, hfits, rfl, ?_, ?_⟩, rfl⟩
    · rw [if_neg hdone]
      exact hready
    · rw [decide_eq_false hdone]
      exact hopen

/-- Every part that has its bytes and no part missing before it is written. -/
theorem Written.writeReady (h : Written part existing full count l) (hlast : l.offset =
      existing.length + (count + requests.length) * kChunkSize)
    (hpart : ∀ offset < full, (part offset).length = min kChunkSize (full - offset))
    (hqueued : Queued part full (existing.length + count * kChunkSize) requests) :
    ∃ count', Loading part existing full count' (l.writeReady requests) := by
  induction requests generalizing l count with
  | nil => exact ⟨count, ⟨h.size, h.output, h.already, h.length, h.fits, h.total, h.ready, h.outputOpen⟩,
      trivial, hlast, fun request hrequest => nomatch hrequest⟩
  | cons request requests ih =>
    obtain ⟨hoffset, hlt, hbytes, hrest⟩ := hqueued
    rw [DedicatedLoader.writeReady]
    by_cases hwaits : request.bytes = []
    · rw [if_pos hwaits]
      refine ⟨count, ⟨h.size, h.output, h.already, h.length, h.fits, h.total, h.ready, h.outputOpen⟩,
        ⟨hoffset, hlt, hbytes, hrest⟩, hlast, ?_⟩
      intro r hr
      obtain rfl := Option.some.inj hr
      exact hwaits
    · rw [if_neg hwaits]
      have heq : request.bytes = part (existing.length + count * kChunkSize) :=
        hbytes.resolve_left hwaits
      obtain ⟨hwritten, hsame⟩ := h.writeChunk hpart hlt
      rw [heq]
      refine ih hwritten ?_ ?_
      · rw [hsame, hlast, List.length_cons, Nat.add_right_comm count 1, Nat.add_assoc]
      · have hnext : existing.length + (count + 1) * kChunkSize =
            existing.length + count * kChunkSize + kChunkSize := by ring
        rw [hnext]
        exact hrest

theorem Queued.length_setBytes (requests : List Request) (offset : Nat) (bytes : List UInt8) :
    (setBytes requests offset bytes).length = requests.length := by
  induction requests with
  | nil => rfl
  | cons request requests ih =>
    rw [setBytes]
    split
    · rfl
    · rw [List.length_cons, ih, List.length_cons]

theorem Queued.setBytes {start : Nat} {requests : List Request}
    (h : Queued part full start requests) (offset : Nat) :
    Queued part full start (DedicatedLoader.setBytes requests offset (part offset)) := by
  induction requests generalizing start with
  | nil => exact h
  | cons request requests ih =>
    obtain ⟨hoffset, hlt, hbytes, hrest⟩ := h
    rw [DedicatedLoader.setBytes]
    split
    · next heq => exact ⟨hoffset, hlt, .inr (by rw [← hoffset, heq]), hrest⟩
    · exact ⟨hoffset, hlt, hbytes, ih hrest⟩

theorem Queued.append {start : Nat} {requests : List Request}
    (h : Queued part full start requests)
    (hlt : start + requests.length * kChunkSize < full) :
    Queued part full start
      (requests ++ [{ offset := start + requests.length * kChunkSize }]) := by
  induction requests generalizing start with
  | nil =>
    rw [List.length_nil, Nat.zero_mul] at hlt ⊢
    exact ⟨rfl, hlt, .inl rfl, trivial⟩
  | cons request requests ih =>
    obtain ⟨hoffset, hstart, hbytes, hrest⟩ := h
    have hnext : start + (request :: requests).length * kChunkSize =
        start + kChunkSize + requests.length * kChunkSize := by
      rw [List.length_cons]
      ring
    rw [hnext] at hlt ⊢
    exact ⟨hoffset, hstart, hbytes, ih hrest hlt⟩

theorem Loading.sendRequest (h : Loading part existing full count l) :
    Loading part existing full count l.sendRequest := by
  rw [DedicatedLoader.sendRequest]
  split
  · exact h
  · next hsend =>
    have hlt : l.offset < full := by
      rw [not_or, Nat.not_le, Nat.not_le, h.written.size] at hsend
      exact hsend.2
    have hoffset : l.offset =
        existing.length + count * kChunkSize + l.requests.length * kChunkSize := by
      rw [h.offset]
      ring
    refine ⟨⟨h.written.size, h.written.output, h.written.already, h.written.length,
      h.written.fits, h.written.total, h.written.ready, h.written.outputOpen⟩, ?_, ?_, ?_⟩
    · rw [hoffset] at hlt ⊢
      exact h.queued.append hlt
    · dsimp only
      rw [List.length_append, List.length_singleton, h.offset]
      ring
    · intro request hrequest
      rw [List.head?_append] at hrequest
      cases hhead : l.requests.head? with
      | none =>
        rw [hhead] at hrequest
        obtain rfl := Option.some.inj hrequest
        rfl
      | some first =>
        rw [hhead] at hrequest
        obtain rfl := Option.some.inj hrequest
        exact h.front first hhead

theorem Loading.threadSafeFailed (h : Loading part existing full count l) :
    Loading part existing full count l.threadSafeFailed :=
  ⟨⟨h.written.size, h.written.output, h.written.already, h.written.length, h.written.fits,
    h.written.total,
    h.written.ready, h.written.outputOpen⟩, h.queued, h.offset, h.front⟩

theorem Queued.lt_of_mem {start : Nat} (h : Queued part full start requests)
    {request : Request} (hmem : request ∈ requests) : request.offset < full := by
  induction requests generalizing start with
  | nil => cases hmem
  | cons first requests ih =>
    obtain ⟨hoffset, hlt, -, hrest⟩ := h
    rcases List.mem_cons.mp hmem with rfl | hmem
    · exact hoffset ▸ hlt
    · exact ih hrest hmem

theorem gotPart_some (l : DedicatedLoader) (offset : Nat) {bytes : List UInt8}
    (hbytes : bytes ≠ []) : l.gotPart offset (some bytes) =
      (l.writeReady (DedicatedLoader.setBytes l.requests offset bytes)).sendRequest := by
  cases bytes with
  | nil => exact absurd rfl hbytes
  | cons b bytes => rfl

theorem Loading.step (hpart : ∀ offset < full,
      (part offset).length = min kChunkSize (full - offset)) (h : Loading part existing full count l)
    (hstep : Step part l l') : ∃ count', Loading part existing full count' l' := by
  cases hstep with
  | timer => exact ⟨count, h.sendRequest⟩
  | answer request hmem hwaits =>
    have hlt := h.queued.lt_of_mem hmem
    have hbytes : part request.offset ≠ [] := by
      intro hnil
      have hlength := hpart _ hlt
      rw [hnil, List.length_nil, kChunkSize] at hlength
      omega
    rw [gotPart_some l request.offset hbytes]
    obtain ⟨count', hloading⟩ := h.written.writeReady
      (by rw [Queued.length_setBytes]; exact h.offset) hpart (h.queued.setBytes request.offset)
    exact ⟨count', hloading.sendRequest⟩
  | redirect request hmem hwaits => exact ⟨count, h.threadSafeFailed⟩
  | empty request hmem hwaits => exact ⟨count, h.threadSafeFailed⟩
  | fail => exact ⟨count, h.threadSafeFailed⟩

theorem loading_start (part : Nat → List UInt8) (hfull : 0 < full) (found : Option (List UInt8)) :
    Loading part (validateOutput found) full 0 (start full found) := by
  refine Loading.sendRequest ?_
  generalize validateOutput found = output
  have hempty : output ++ partsFrom part output.length 0 = output := List.append_nil _
  rw [DedicatedLoader.writeChunk]
  dsimp only
  rw [if_neg (by simp), if_pos rfl, List.append_nil, List.length_nil, Nat.add_zero]
  by_cases hdone : full ≤ output.length
  · rw [if_pos ⟨hfull, hdone⟩]
    refine ⟨⟨rfl, hempty.symm, rfl, .inl rfl, (fun i hi => nomatch hi), rfl, ?_, ?_⟩, trivial, ?_,
      fun r hr => nomatch hr⟩
    · rw [if_pos hdone]
    · rw [decide_eq_true hdone]
      rfl
    · simp
  · rw [if_neg fun hboth => hdone hboth.2]
    refine ⟨⟨rfl, hempty.symm, rfl, .inl rfl, (fun i hi => nomatch hi), rfl, ?_, ?_⟩, trivial, ?_,
      fun r hr => nomatch hr⟩
    · rw [if_neg hdone]
    · rw [decide_eq_false hdone]
      rfl
    · simp

/-- The parts in the order of their offsets, each once, and ready when none is
missing. -/
def InOrder (part : Nat → List UInt8) (existing : List UInt8) (full : Nat) (l : DedicatedLoader) :
    Prop :=
  ∃ count, l.output = existing ++ partsFrom part existing.length count ∧
    (∀ i < count, existing.length + i * kChunkSize < full) ∧
    l.ready = (if full ≤ l.output.length then 1 else 0) ∧
    (full ≤ l.output.length ↔ ∀ i, existing.length + i * kChunkSize < full → i < count)

theorem Written.inOrder (h : Written part existing full count l) :
    InOrder part existing full l := by
  have hreach : full ≤ l.alreadySize ↔ full ≤ existing.length + count * kChunkSize := by
    rcases h.length with rfl | hlength
    · rw [h.already, h.output, partsFrom, Nat.zero_mul]
      simp
    · rw [hlength]
      omega
  rw [h.already] at hreach
  refine ⟨count, h.output, h.fits, h.already ▸ h.ready, hreach.trans ⟨fun hle i hi => ?_, fun hall => ?_⟩⟩
  · by_contra hge
    have hmul := Nat.mul_le_mul_right kChunkSize (Nat.le_of_not_lt hge)
    omega
  · by_contra hlt
    exact Nat.lt_irrefl count (hall count (Nat.lt_of_not_le hlt))

/-- The part of a file that the server sends for an offset. -/
def filePart (file : List UInt8) (offset : Nat) : List UInt8 := (file.drop offset).take kChunkSize

theorem length_filePart (file : List UInt8) (offset : Nat) :
    (filePart file offset).length = min kChunkSize (file.length - offset) := by
  rw [filePart, List.length_take, List.length_drop]

end

end DedicatedLoader

end TelegramClient.Mtproto
