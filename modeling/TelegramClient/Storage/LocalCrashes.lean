import Mathlib
import TelegramClient.Storage.LocalFailures

/-! Writes of a local file that stop on the way. What is read under the name changes at
once or not at all, unless a write begins to overwrite the only good copy. -/

namespace TelegramClient.LocalCopies

/-- The value of a register under the events: a write replaces it, a write that stops
replaces it or not. -/
inductive Register : List Event → Option (Int × List UInt8) → Prop
  | nil : Register [] none
  | read {es : List Event} {c : Option (Int × List UInt8)} (h : Register es c) :
      Register (es ++ [.read]) c
  | write {es : List Event} {c : Option (Int × List UInt8)} (h : Register es c) (device : Device)
      (now : Nat) (arrays : List QByteArray) :
      Register (es ++ [.write device now arrays]) (some ((AppVersion : Int), streamOf arrays))
  | kept {es : List Event} {c : Option (Int × List UInt8)} (h : Register es c) (now : Nat)
      (arrays : List QByteArray) (written : Option Nat) :
      Register (es ++ [.stop now arrays written]) c
  | replaced {es : List Event} {c : Option (Int × List UInt8)} (h : Register es c) (now : Nat)
      (arrays : List QByteArray) (written : Option Nat) :
      Register (es ++ [.stop now arrays written]) (some ((AppVersion : Int), streamOf arrays))

/-- What the next read returns. -/
def content (qt : Qt) (d : LocalCopies) : Option (Int × List UInt8) := (d.readFile qt true).1

/-- Two copies are there, and only the older one can be read. -/
def OnlyOlderGood (qt : Qt) (d : LocalCopies) : Prop :=
  ∃ (name : CopyName) (newer older : Copy), d.get name = some newer ∧
    d.get name.other = some older ∧ older.modified < newer.modified ∧
    readCopy qt newer.bytes = none ∧ readCopy qt older.bytes ≠ none

/-- The clock of the file system: it does not go back, and the copy that is written becomes
newer than the one beside it. -/
structure InOrder (d : LocalCopies) (now : Nat) : Prop where
  le : ∀ name copy, d.get name = some copy → copy.modified ≤ now
  lt : ∀ copy, d.get (d.toWrite true).1.other = some copy → copy.modified < now

/-- No proper prefix of the complete file carries a valid signature. -/
def PrefixBroken (qt : Qt) (arrays : List QByteArray) : Prop :=
  ∀ n < (fileBytes arrays).length, readCopy qt ((fileBytes arrays).take n) = none

/-- A write that stops inside its file does not begin when only the older of two copies can
be read. -/
inductive Allowed (qt : Qt) (d : LocalCopies) : Event → Prop
  | read : Allowed qt d .read
  | write {device : Device} {now : Nat} {arrays : List QByteArray} (hclock : InOrder d now)
      (hfits : (streamOf arrays).length + 16 ≤ qt.maxSize) (hopens : device.opens = true)
      (hok : (FileWriteDescriptor.writeAll device arrays).failed = false) :
      Allowed qt d (.write device now arrays)
  | stop {now : Nat} {arrays : List QByteArray} {written : Option Nat} (hclock : InOrder d now)
      (hfits : (streamOf arrays).length + 16 ≤ qt.maxSize) (hcut : PrefixBroken qt arrays)
      (hspares : ∀ n, written = some n → n < (fileBytes arrays).length → ¬OnlyOlderGood qt d) :
      Allowed qt d (.stop now arrays written)

/-- Runs whose steps are all allowed, from a name without files. -/
inductive Run (qt : Qt) : List Event → LocalCopies → Prop
  | nil : Run qt [] {}
  | snoc {es : List Event} {d : LocalCopies} {e : Event} (h : Run qt es d) (he : Allowed qt d e) :
      Run qt (es ++ [e]) (step qt d e)

/-- Two copies never have the same time. -/
def Ordered (d : LocalCopies) : Prop :=
  ∀ name copy copy', d.get name = some copy → d.get name.other = some copy' →
    copy.modified < copy'.modified ∨ copy'.modified < copy.modified

variable {qt : Qt} {d : LocalCopies} {name : CopyName} {newer older copy : Copy}

@[simp] theorem other_other (name : CopyName) : name.other.other = name := by
  cases name <;> rfl

theorem content_alone (hget : d.get name = some copy) (hother : d.get name.other = none) :
    content qt d = readCopy qt copy.bytes := by
  rw [content, readFile_alone (toRead_alone hget hother) hget]

theorem toRead_both (hnew : d.get name = some newer) (hold : d.get name.other = some older)
    (hlt : older.modified < newer.modified) : d.toRead true = (name, some name.other) := by
  cases name <;> simp only [get, CopyName.other] at hnew hold <;>
    simp [toRead, hnew, hold, CopyName.other] <;> omega

theorem toWrite_both (hnew : d.get name = some newer) (hold : d.get name.other = some older)
    (hlt : older.modified < newer.modified) : d.toWrite true = (name.other, some name) := by
  cases name <;> simp only [get, CopyName.other] at hnew hold <;>
    simp [toWrite, hnew, hold, CopyName.other] <;> omega

theorem readFile_both (hnew : d.get name = some newer) (hold : d.get name.other = some older)
    (hlt : older.modified < newer.modified) :
    d.readFile qt true =
      if (readCopy qt newer.bytes).isSome then (readCopy qt newer.bytes, d.remove (some name.other))
      else if (readCopy qt older.bytes).isSome then
        (readCopy qt older.bytes, d.remove (some name))
      else (none, d) := by
  have hfirst : d.tryRead qt name = readCopy qt newer.bytes := by
    rw [tryRead, hnew]
  have hsecond : d.tryRead qt name.other = readCopy qt older.bytes := by
    rw [tryRead, hold]
  rw [readFile, toRead_both hnew hold hlt]
  dsimp only
  rw [hfirst, hsecond]
  cases readCopy qt newer.bytes <;> cases readCopy qt older.bytes <;> rfl

theorem content_both (hnew : d.get name = some newer) (hold : d.get name.other = some older)
    (hlt : older.modified < newer.modified) :
    content qt d = (readCopy qt newer.bytes).or (readCopy qt older.bytes) := by
  rw [content, readFile_both hnew hold hlt]
  cases readCopy qt newer.bytes <;> cases readCopy qt older.bytes <;> rfl

theorem content_none (h : ∀ name, d.get name = none) : content qt d = none := by
  by_contra hread
  obtain ⟨result, hresult⟩ := Option.ne_none_iff_exists'.mp hread
  obtain ⟨name, copy, hget, -⟩ := readFile_eq_some hresult
  rw [h name] at hget
  cases hget

theorem Ordered.cases (h : Ordered d) : (∀ name, d.get name = none) ∨
    (∃ name copy, d.get name = some copy ∧ d.get name.other = none) ∨
    ∃ name newer older, d.get name = some newer ∧ d.get name.other = some older ∧
      older.modified < newer.modified := by
  cases h0 : d.get .zero with
  | none =>
    cases h1 : d.get .one with
    | none =>
      left
      intro name
      cases name
      · exact h0
      · exact h1
    | some copy => exact .inr (.inl ⟨.one, copy, h1, h0⟩)
  | some copy0 =>
    cases h1 : d.get .one with
    | none => exact .inr (.inl ⟨.zero, copy0, h0, h1⟩)
    | some copy1 =>
      rcases h .zero copy0 copy1 h0 h1 with hlt | hlt
      · exact .inr (.inr ⟨.one, copy1, copy0, h1, h0, hlt⟩)
      · exact .inr (.inr ⟨.zero, copy0, copy1, h0, h1, hlt⟩)

/-! ### What a stopped write leaves -/

theorem writeAll_complete {arrays : List QByteArray}
    (hfits : (streamOf arrays).length + 16 ≤ qt.maxSize) :
    (FileWriteDescriptor.writeAll {} arrays).file = fileBytes arrays :=
  FileWriteDescriptor.writeAll_file (arrays_lt_of_fits hfits)
    (FileWriteDescriptor.writeAll_failed (fun _ _ => rfl) arrays)

/-- The write goes to a name that is free, or to the older of two copies. -/
theorem toWrite_target (h : Ordered d) :
    (d.get (d.toWrite true).1.other = none ∧ d.get (d.toWrite true).1 = none) ∨
      ∃ newer, d.get (d.toWrite true).1.other = some newer ∧
        ∀ older, d.get (d.toWrite true).1 = some older → older.modified < newer.modified := by
  rcases h.cases with hnone | ⟨name, copy, hget, hother⟩ | ⟨name, newer, older, hnew, hold, hlt⟩
  · exact .inl ⟨hnone _, hnone _⟩
  · have htarget : (d.toWrite true).1 = name.other := by
      cases name <;> simp only [get, CopyName.other] at hget hother <;>
        simp [toWrite, hget, hother, CopyName.other]
    rw [htarget, other_other]
    refine .inr ⟨copy, hget, ?_⟩
    intro older hold
    rw [hother] at hold
    cases hold
  · rw [toWrite_both hnew hold hlt, other_other]
    refine .inr ⟨newer, hnew, ?_⟩
    intro older' hold'
    rw [hold] at hold'
    cases hold'
    exact hlt

theorem ordered_set {now : Nat} {bytes : List UInt8} (h : InOrder d now) :
    Ordered (d.set (d.toWrite true).1 (some ⟨bytes, now⟩)) := by
  have hlt := h.lt
  have hne := other_ne (d.toWrite true).1
  intro name copy copy' hget hother
  rw [get_set] at hget hother
  rcases eq_or_eq_other (d.toWrite true).1 name with rfl | rfl
  · rw [if_pos rfl] at hget
    rw [if_neg hne] at hother
    cases hget
    exact .inr (hlt copy' hother)
  · rw [if_neg hne] at hget
    rw [other_other, if_pos rfl] at hother
    cases hother
    exact .inl (hlt copy hget)

/-- The content under a written copy: that copy if it can be read, else the copy beside it. -/
theorem content_set {now : Nat} {bytes : List UInt8} (h : InOrder d now) :
    content qt (d.set (d.toWrite true).1 (some ⟨bytes, now⟩)) =
      (readCopy qt bytes).or
        ((d.get (d.toWrite true).1.other).bind fun copy => readCopy qt copy.bytes) := by
  have hne := other_ne (d.toWrite true).1
  have hnew : (d.set (d.toWrite true).1 (some ⟨bytes, now⟩)).get (d.toWrite true).1 =
      some ⟨bytes, now⟩ := by
    rw [get_set, if_pos rfl]
  have hother : (d.set (d.toWrite true).1 (some ⟨bytes, now⟩)).get (d.toWrite true).1.other =
      d.get (d.toWrite true).1.other := by
    rw [get_set, if_neg hne]
  cases hold : d.get (d.toWrite true).1.other with
  | none =>
    rw [content_alone hnew (hother.trans hold), Option.bind_none, Option.or_none]
  | some older =>
    rw [content_both hnew (hother.trans hold) (h.lt older hold), Option.bind_some]

/-- The copy beside the one that is written holds the content, unless only the older one
of two copies can be read. -/
theorem content_beside (h : Ordered d) (hspares : ¬OnlyOlderGood qt d) :
    ((d.get (d.toWrite true).1.other).bind fun copy => readCopy qt copy.bytes) = content qt d := by
  rcases toWrite_target h with ⟨hother, htarget⟩ | ⟨newer, hother, hlt⟩
  · have hnone : ∀ name, d.get name = none := by
      intro name
      rcases eq_or_eq_other (d.toWrite true).1 name with rfl | rfl
      · exact htarget
      · exact hother
    rw [hother, content_none hnone, Option.bind_none]
  · rw [hother, Option.bind_some]
    cases htarget : d.get (d.toWrite true).1 with
    | none =>
      have hback : d.get (d.toWrite true).1.other.other = none := by
        rw [other_other, htarget]
      rw [content_alone hother hback]
    | some older =>
      have hback : d.get (d.toWrite true).1.other.other = some older := by
        rw [other_other, htarget]
      rw [content_both hother hback (hlt older htarget)]
      cases hread : readCopy qt newer.bytes with
      | some result => rfl
      | none =>
        have hold : readCopy qt older.bytes = none := by
          by_contra hgood
          exact hspares ⟨_, newer, older, hother, hback, hlt older htarget, hread, hgood⟩
        rw [hold]
        rfl

theorem content_stopWrite {now : Nat} {arrays : List QByteArray} (h : Ordered d)
    (hclock : InOrder d now) (hfits : (streamOf arrays).length + 16 ≤ qt.maxSize)
    (hcut : PrefixBroken qt arrays) (written : Option Nat)
    (hspares : ∀ n, written = some n → n < (fileBytes arrays).length → ¬OnlyOlderGood qt d) :
    content qt (d.stopWrite true {} now arrays written) = content qt d ∨
      content qt (d.stopWrite true {} now arrays written) =
        some ((AppVersion : Int), streamOf arrays) := by
  cases written with
  | none => exact .inl rfl
  | some n =>
    rw [stopWrite, writeAll_complete hfits, content_set hclock]
    by_cases hn : n < (fileBytes arrays).length
    · rw [hcut n hn, Option.none_or, content_beside h (hspares n rfl hn)]
      exact .inl rfl
    · rw [List.take_of_length_le (by omega), readCopy_fileBytes hfits, Option.some_or]
      exact .inr rfl

/-- Stopped inside its file, a write loses the content exactly in the state that is spared. -/
theorem content_stopWrite_iff {now n : Nat} {arrays : List QByteArray} (h : Ordered d)
    (hclock : InOrder d now) (hfits : (streamOf arrays).length + 16 ≤ qt.maxSize)
    (hcut : PrefixBroken qt arrays) (hn : n < (fileBytes arrays).length) :
    content qt (d.stopWrite true {} now arrays (some n)) = content qt d ↔
      ¬OnlyOlderGood qt d := by
  constructor
  · rintro hkept ⟨name, newer, older, hnew, hold, hlt, hbroken, hgood⟩
    rw [stopWrite, writeAll_complete hfits, content_set hclock, hcut n hn, Option.none_or,
      toWrite_both hnew hold hlt, other_other, hnew, Option.bind_some, hbroken,
      content_both hnew hold hlt, hbroken, Option.none_or] at hkept
    exact hgood hkept.symm
  · intro hspares
    rw [stopWrite, writeAll_complete hfits, content_set hclock, hcut n hn, Option.none_or,
      content_beside h hspares]

/-! ### The other steps -/

theorem ordered_of_other_none {name : CopyName} (h : d.get name = none) : Ordered d := by
  intro name' copy copy' hget hother
  rcases eq_or_eq_other name name' with rfl | rfl
  · rw [h] at hget
    cases hget
  · rw [other_other, h] at hother
    cases hother

variable (qt) in
/-- A read leaves the copy it used, and nothing is lost by removing the other one. -/
theorem readFile_again (h : Ordered d) :
    Ordered (d.readFile qt true).2 ∧ content qt (d.readFile qt true).2 = content qt d := by
  rcases h.cases with hnone | ⟨name, copy, hget, hother⟩ | ⟨name, newer, older, hnew, hold, hlt⟩
  · have hread : d.readFile qt true = (none, d) := by
      have h0 : d.copy0 = none := hnone .zero
      have h1 : d.copy1 = none := hnone .one
      simp [readFile, toRead, tryRead, get, h0, h1]
    rw [hread]
    exact ⟨h, rfl⟩
  · rw [readFile_alone (toRead_alone hget hother) hget]
    exact ⟨h, rfl⟩
  · have hne := other_ne name
    rw [readFile_both hnew hold hlt, content_both hnew hold hlt]
    by_cases hnewer : (readCopy qt newer.bytes).isSome = true
    · have hkept : (d.remove (some name.other)).get name = some newer := by
        rw [get_remove, if_neg hne.symm, hnew]
      have hgone : (d.remove (some name.other)).get name.other = none := by
        rw [get_remove, if_pos rfl]
      rw [if_pos hnewer]
      refine ⟨ordered_of_other_none hgone, ?_⟩
      rw [content_alone hkept hgone, Option.or_of_isSome hnewer]
    rw [if_neg hnewer]
    rw [Option.not_isSome_iff_eq_none] at hnewer
    rw [hnewer, Option.none_or]
    by_cases holder : (readCopy qt older.bytes).isSome = true
    · have hkept : (d.remove (some name)).get name.other = some older := by
        rw [get_remove, if_neg hne, hold]
      have hgone : (d.remove (some name)).get name = none := by
        rw [get_remove, if_pos rfl]
      have hback : (d.remove (some name)).get name.other.other = none := by
        rw [other_other, hgone]
      rw [if_pos holder]
      exact ⟨ordered_of_other_none hgone, content_alone hkept hback⟩
    · rw [if_neg holder, content_both hnew hold hlt, hnewer, Option.none_or]
      exact ⟨h, rfl⟩

theorem writeFile_complete {device : Device} {now : Nat} {arrays : List QByteArray}
    (hfits : (streamOf arrays).length + 16 ≤ qt.maxSize) (hopens : device.opens = true)
    (hok : (FileWriteDescriptor.writeAll device arrays).failed = false) :
    Ordered (d.writeFile true device now arrays) ∧
      content qt (d.writeFile true device now arrays) =
        some ((AppVersion : Int), streamOf arrays) := by
  obtain ⟨hget, hother⟩ := get_writeFile hopens now d arrays
  refine ⟨ordered_of_other_none hother, ?_⟩
  rw [content_alone hget hother,
    FileWriteDescriptor.writeAll_file (arrays_lt_of_fits hfits) hok]
  exact readCopy_fileBytes hfits

theorem register_step {es : List Event} {e : Event} (h : Ordered d)
    (hr : Register es (content qt d)) (he : Allowed qt d e) :
    Ordered (step qt d e) ∧ Register (es ++ [e]) (content qt (step qt d e)) := by
  cases he with
  | read =>
    obtain ⟨hordered, hsame⟩ := readFile_again qt h
    rw [step, hsame]
    exact ⟨hordered, .read hr⟩
  | write hclock hfits hopens hok =>
    obtain ⟨hordered, hnew⟩ := writeFile_complete (d := d) hfits hopens hok
    rw [step, hnew]
    exact ⟨hordered, .write hr _ _ _⟩
  | @stop now arrays written hclock hfits hcut hspares =>
    have hordered : Ordered (d.stopWrite true {} now arrays written) := by
      cases written with
      | none => exact h
      | some n => exact ordered_set hclock
    refine ⟨hordered, ?_⟩
    rw [step]
    rcases content_stopWrite h hclock hfits hcut written hspares with hkept | hnew
    · rw [hkept]
      exact .kept hr _ _ _
    · rw [hnew]
      exact .replaced hr _ _ _

theorem register_of_run {es : List Event} (h : Run qt es d) :
    Ordered d ∧ Register es (content qt d) := by
  induction h with
  | nil =>
    refine ⟨@ordered_of_other_none _ .zero rfl, ?_⟩
    rw [content_none (by intro name; cases name <;> rfl)]
    exact .nil
  | snoc h he ih => exact register_step ih.1 ih.2 he

theorem Register.isSome {es : List Event} {c : Option (Int × List UInt8)} (h : Register es c)
    {device : Device} {now : Nat} {arrays : List QByteArray}
    (hmem : Event.write device now arrays ∈ es) : c.isSome = true := by
  induction h with
  | nil => cases hmem
  | read h ih => exact ih (by simpa using hmem)
  | write h device now arrays ih => rfl
  | kept h now arrays written ih => exact ih (by simpa using hmem)
  | replaced h now arrays written ih => rfl

/-- Reads, writes and stopped writes in any order: what is read is the value of a register
that a stopped write replaced or not, and there is one once a write has been completed. -/
theorem atomic_of_run (qt : Qt) {es : List Event} {d : LocalCopies} (h : Run qt es d) :
    Register es (d.readFile qt true).1 ∧
      ∀ device now arrays, Event.write device now arrays ∈ es →
        (d.readFile qt true).1.isSome = true := by
  have hr := (register_of_run h).2
  refine ⟨hr, ?_⟩
  intro device now arrays hmem
  exact hr.isSome hmem

theorem inOrder_of_all {now : Nat}
    (hle : ∀ name : CopyName, (d.get name).all (fun copy => copy.modified ≤ now) = true)
    (hlt : (d.get (d.toWrite true).1.other).all (fun copy => copy.modified < now) = true) :
    InOrder d now where
  le := by
    intro name copy hget
    have h := hle name
    rw [hget] at h
    simpa using h
  lt := by
    intro copy hget
    rw [hget] at hlt
    simpa using hlt

theorem prefixBroken_nil (qt : Qt) : PrefixBroken qt [] := by
  intro n hn
  have hlen : (fileBytes []).length = 24 := by decide
  rw [hlen] at hn
  by_contra hread
  obtain ⟨result, hresult⟩ := Option.ne_none_iff_exists'.mp hread
  obtain ⟨v, data⟩ := result
  have hbytes := congrArg List.length (readCopy_eq_some hresult).2.2.2.2
  rw [List.length_append, length_signature, List.length_take, List.length_drop, List.length_take,
    hlen] at hbytes
  omega

/-- A file that was written once. -/
def saved : LocalCopies := run qt64 {} [.write {} 1 [some [0x61]]]

theorem atomic_of_run_saved :
    Register [.write {} 1 [some [0x61]], .stop 2 [] (some 10), .read]
        ((run qt64 saved [.stop 2 [] (some 10), .read]).readFile qt64 true).1 ∧
      ((run qt64 saved [.stop 2 [] (some 10), .read]).readFile qt64 true).1.isSome = true := by
  have hwrite : Allowed qt64 {} (.write {} 1 [some [0x61]]) :=
    .write (inOrder_of_all (by intro name; cases name <;> rfl) rfl) (by decide) rfl
      (FileWriteDescriptor.writeAll_failed (fun _ _ => rfl) _)
  have hstop : Allowed qt64 saved (.stop 2 [] (some 10)) := by
    refine .stop (inOrder_of_all ?_ (by decide)) (by decide) (prefixBroken_nil _) ?_
    · intro name
      cases name <;> decide
    · rintro n - - ⟨name, newer, older, hnew, hold, -⟩
      cases name
      · cases hold
      · cases hnew
  have h := atomic_of_run qt64 (((Run.nil.snoc hwrite).snoc hstop).snoc .read)
  exact ⟨h.1, h.2 {} 1 [some [0x61]] (by simp)⟩

/-- Two writes that stop one after the other lose the content: the first leaves a broken
newer copy, and the second overwrites the older one, which was good. -/
theorem twoStops_lose :
    PrefixBroken qt64 [] ∧ InOrder {} 1 ∧ InOrder saved 2 ∧
      InOrder (run qt64 saved [.stop 2 [] (some 10)]) 3 ∧
      (saved.readFile qt64 true).1 = some ((AppVersion : Int), streamOf [some [0x61]]) ∧
      ((run qt64 saved [.stop 2 [] (some 10), .stop 3 [] (some 10)]).readFile qt64 true).1 =
        none := by
  refine ⟨prefixBroken_nil _, inOrder_of_all ?_ rfl, inOrder_of_all ?_ ?_, inOrder_of_all ?_ ?_,
    ?_, ?_⟩
  · intro name
    cases name <;> rfl
  · intro name
    cases name <;> decide
  · decide
  · intro name
    cases name <;> decide
  · decide
  · decide +kernel
  · decide

end TelegramClient.LocalCopies
