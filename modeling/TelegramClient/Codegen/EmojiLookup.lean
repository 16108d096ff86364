import TelegramClient.Codegen.EmojiWrites

/-! The written lookup code finds the longest key that a text starts with: the run returns at
the first key that matches. -/

namespace TelegramClient.Codegen

open TelegramClient.Lib

namespace Writer

section Items

variable {d : Dictionary} {skip : Bool} {text : List QChar} {seen : List (List QChar)}
  {key : List QChar} {items : List (List QChar × Nat)} {w : Writer}

/-- `seen` are the keys before `key`, and the checks are those of the last of them. -/
structure Before (d : Dictionary) (seen : List (List QChar)) (key : List QChar)
    (items : List (List QChar × Nat)) (w : Writer) : Prop where
  keys : d.keys = seen ++ key :: items.map Prod.fst
  last : (seen = [] ∧ w.checks = []) ∨ w.chars ∈ seen

theorem Before.gt (hb : w.Before d seen key items) {k : List QChar} (hk : k ∈ seen) : key < k := by
  have hsorted : d.keys.Pairwise (· > ·) := d.sorted
  rw [hb.keys, List.pairwise_append] at hsorted
  exact hsorted.2.2 k hk key (by simp)

theorem Before.sorted (hb : w.Before d seen key items) :
    (key :: items.map Prod.fst).Pairwise (· > ·) := by
  have hsorted : d.keys.Pairwise (· > ·) := d.sorted
  rw [hb.keys, List.pairwise_append] at hsorted
  exact hsorted.2.1

theorem Before.ne_nil (hb : w.Before d seen key items) : key ≠ [] := by
  have hkey : key ∈ d.keys := by simp [hb.keys]
  obtain ⟨item, hitem, rfl⟩ := List.mem_map.mp hkey
  exact d.nonempty item hitem

/-- What is no prefix of the key any more is no prefix of a key behind it. -/
theorem Before.gone (hb : w.Before d seen key items) {q : List QChar} (hq : q <+: w.chars)
    (hnot : ¬ q <+: key) : ∀ k ∈ key :: items.map Prod.fst, ¬ q <+: k := by
  intro k hk hqk
  rcases hb.last with ⟨-, hnil⟩ | hlast
  · simp [Writer.chars, hnil] at hq
    simp [hq] at hnot
  · have hle : k ≤ key := by
      rcases List.mem_cons.mp hk with rfl | hk
      · exact le_rfl
      · exact (List.rel_of_pairwise_cons hb.sorted hk).le
    exact hnot (prefix_of_between (hb.gt hlast).le hle hq hqk)

theorem inside_of_mem {p k q : List QChar} (hk : k ∈ seen) (hp : p <+: k) :
    Inside seen p q ↔ ∃ k ∈ seen, q <+: k := by
  constructor
  · rintro (hq | hq)
    · exact hq
    · exact ⟨k, hk, hq.1.trans hp⟩
  · exact Or.inl

/-- The checks of the last key that the key does not share are finished. -/
theorem writes_finish (hb : w.Before d seen key items)
    (h : w.Writes d skip text seen (key :: items.map Prod.fst) false) :
    let r := finishChecksTillKey key w.checks
    ({ w.write r.1 with checks := r.2.1 } : Writer).Writes d skip text seen
      (key :: items.map Prod.fst) (r.2.2 && decide (key ≠ charsOf r.2.1)) := by
  intro r
  obtain ⟨hsuffix, hprefix⟩ := finish_suffix key w.checks
  have hchars : charsOf r.2.1 <+: w.chars := charsOf_prefix hsuffix
  have hifs : IfsFit [key] w.checks := by
    intro c outer hout k hk
    obtain rfl := List.mem_singleton.mp hk
    exact h.ifs c outer hout k List.mem_cons_self
  obtain ⟨hfollows, hch, hout, hres⟩ := Machine.follows_finish key h.result
    (fun q hq hnot => hb.gone hq hnot) hifs (by simpa [Writer.chars] using h.follows)
  have hmachine : ({ w.write r.1 with checks := r.2.1 } : Writer).machine text =
      Machine.execAll text (w.machine text) r.1 := machine_write w text r.1
  constructor
  · constructor
    · intro q
      show q ∈ w.lengthsCounted ↔ q ∈ d.keys ∧ Inside seen (charsOf r.2.1) q
      rw [h.counts.mem]
      rcases hb.last with ⟨-, hnil⟩ | hlast
      · have hr : r.2.1 = [] := by simpa [r, hnil] using hsuffix
        simp [Writer.chars, hnil, hr]
      · rw [inside_of_mem hlast (List.prefix_refl _), inside_of_mem hlast hchars]
    · rw [hmachine, hout]
      exact h.counts.stored
  · intro c outer hout
    exact h.ifs c outer (hout.trans hsuffix)
  · rw [hmachine, hres]
    exact h.result
  · rw [hmachine]
    by_cases hopen : r.2.2 = true ∧ key ≠ charsOf r.2.1
    · simpa [Writer.chars, hopen, r] using hfollows
    · have hflag : (r.2.2 && decide (key ≠ charsOf r.2.1)) = false := by
        by_contra hyes
        exact hopen (by simpa using hyes)
      rw [if_neg hopen] at hfollows
      rw [hflag]
      exact hfollows
  · rw [hmachine]
    show _ = placeOf skip text (max (deepest skip text seen) (agree (charsOf r.2.1) _))
    rw [hch, h.reads]
    congr 1
    rcases hb.last with ⟨-, hnil⟩ | hlast
    · have hr : r.2.1 = [] := by simpa [r, hnil] using hsuffix
      simp [Writer.chars, hnil, hr]
    · have hle : agree w.chars (letters skip text) ≤ deepest skip text seen :=
        agree_le_deepest hlast
      have hle' := agree_mono hchars (letters skip text)
      omega

/-- What is written for the letters of a key. -/
def writeKey (d : Dictionary) (skip : Bool) (key : List QChar) (items : List (List QChar × Nat))
    (w : Writer) : Writer :=
  let r := finishChecksTillKey key w.checks
  let w₁ : Writer := { w.write r.1 with checks := r.2.1 }
  writeChecks d skip key items r.2.2 (key.drop w₁.chars.length) w₁

/-- The key is written up to its last letter. Unless its length is counted already, a run that
is inside of all braces there has read no further. -/
theorem writes_key (hb : w.Before d seen key items)
    (h : w.Writes d skip text seen (key :: items.map Prod.fst) false) :
    let w' := w.writeKey d skip key items
    w'.chars = key ∧ w'.Writes d skip text seen (key :: items.map Prod.fst) false ∧
      (key ∉ w'.lengthsCounted → (w'.machine text).Fresh skip text key) := by
  let r := finishChecksTillKey key w.checks
  let w₁ : Writer := { w.write r.1 with checks := r.2.1 }
  intro w'
  obtain ⟨hsuffix, hprefix⟩ := finish_suffix key w.checks
  have hchars : charsOf r.2.1 <+: w.chars := charsOf_prefix hsuffix
  have hfinish : w₁.Writes d skip text seen (key :: items.map Prod.fst)
      (r.2.2 && decide (key ≠ charsOf r.2.1)) := writes_finish hb h
  by_cases hkey : key = charsOf r.2.1
  · have hw' : w' = w₁ := by
      have hdrop : key.drop w₁.chars.length = [] := by
        show key.drop (charsOf r.2.1).length = []
        simp [← hkey]
      show writeChecks d skip key items r.2.2 (key.drop w₁.chars.length) w₁ = w₁
      rw [hdrop, writeChecks]
    have hflag : (r.2.2 && decide (key ≠ charsOf r.2.1)) = false := by
      rw [← hkey]
      simp
    rw [hw']
    rw [hflag] at hfinish
    refine ⟨hkey.symm, hfinish, ?_⟩
    intro hnot
    exfalso
    apply hnot
    rw [hfinish.counts.mem]
    refine ⟨by simp [hb.keys], ?_⟩
    rcases hb.last with ⟨-, hnil⟩ | hlast
    · have hr : r.2.1 = [] := by simpa [r, hnil] using hsuffix
      exact absurd (by simpa [hr] using hkey) hb.ne_nil
    · exact Or.inl ⟨_, hlast, hkey ▸ hchars⟩
  · have hflag : (r.2.2 && decide (key ≠ charsOf r.2.1)) = r.2.2 := by simp [hkey]
    rw [hflag] at hfinish
    have happend : w₁.chars ++ key.drop w₁.chars.length = key := by
      obtain ⟨more, hmore⟩ := hprefix
      show charsOf r.2.1 ++ key.drop (charsOf r.2.1).length = key
      rw [← hmore]
      simp [r]
    have hstep := writes_writeChecks hb.sorted happend ?_ ?_ ?_ hfinish
    · exact ⟨hstep.1, hstep.2.1, fun _ => hstep.2.2⟩
    · intro _ hnil
      apply hkey
      rw [hnil, List.append_nil] at happend
      exact happend.symm
    · intro hflag'
      rcases hb.last with ⟨-, hnil⟩ | hlast
      · simp [r, hnil, finishChecksTillKey] at hflag'
      · exact ⟨_, hlast, hchars⟩
    · intro hflag' _
      have hstop : charsOf w.checks <+: key := by
        by_contra hgo
        rw [(finish_flag key w.checks).mpr hgo] at hflag'
        cases hflag'
      rcases hb.last with ⟨hseen, hnil⟩ | hlast
      · have hr : r.2.1 = [] := by simpa [r, hnil] using hsuffix
        have hw₁ : w₁.chars = [] := by simp [w₁, Writer.chars, hr]
        have hreads : (w₁.machine text).ch = _ := hfinish.reads
        rw [hreads, hw₁, hseen]
        simp [deepest]
      · exact absurd (prefix_le hstop) (not_le.mpr (hb.gt hlast))

/-- What is written behind the checks of a key. -/
def writeEnd (postfixRequired : List Nat) (key : List QChar) (index : Nat) (w : Writer) : Writer :=
  ((if index ∈ postfixRequired then w.write [.requirePostfix] else w).countLength key).write
    [.returnIndex (index + 1)]

theorem writeItem_eq (postfixRequired : List Nat) (index : Nat) :
    w.writeItem d skip postfixRequired key index items =
      (w.writeKey d skip key items).writeEnd postfixRequired key index := rfl

/-- A key that requires a postfix is rejected by the letter before the place of the run. -/
def Rejects (postfixRequired : List Nat) (text : List QChar) (index ch : Nat) : Prop :=
  index ∈ postfixRequired ∧ ¬ postfixBefore text ch

instance (postfixRequired : List Nat) (text : List QChar) (index ch : Nat) :
    Decidable (Rejects postfixRequired text index ch) := instDecidableAnd

variable {required : List Nat} {index : Nat}

theorem machine_requirePostfix (required : List Nat) (index : Nat)
    (hr : (w.machine text).result = none) :
    (if index ∈ required then w.write [.requirePostfix] else w).machine text =
      if (w.machine text).mode = .run ∧ Rejects required text index (w.machine text).ch then
        { w.machine text with result := some 0 } else w.machine text := by
  by_cases hin : index ∈ required
  · have hwrite := w.machine_write text [.requirePostfix]
    simp only [Machine.execAll, List.foldl_cons, List.foldl_nil] at hwrite
    simp [hin, hwrite, Machine.exec_requirePostfix hr, Rejects]
  · simp [hin, Rejects]

theorem checks_writeEnd (w : Writer) (required : List Nat) (key : List QChar) (index : Nat) :
    (w.writeEnd required key index).checks = w.checks := by
  simp only [writeEnd, write, Writer.countLength]
  split <;> split <;> rfl

theorem inside_seen {q : List QChar} :
    Inside seen key q ∨ q = key ↔ Inside (seen ++ [key]) key q := by
  constructor
  · rintro ((⟨k, hk, hq⟩ | hq) | rfl)
    · exact Or.inl ⟨k, List.mem_append_left _ hk, hq⟩
    · exact Or.inr hq
    · exact Or.inl ⟨q, by simp, List.prefix_refl _⟩
  · rintro (⟨k, hk, hq⟩ | hq)
    · rcases List.mem_append.mp hk with hk | hk
      · exact Or.inl (Or.inl ⟨k, hk, hq⟩)
      · obtain rfl := List.mem_singleton.mp hk
        by_cases heq : q = k
        · exact Or.inr heq
        · exact Or.inl (Or.inr ⟨hq, heq⟩)
    · exact Or.inl (Or.inr hq)

/-- A run that is not inside of all braces passes the end of the key over. -/
theorem writeEnd_pass (required : List Nat) (index : Nat) (hkey : key ∈ d.keys) (hchars : w.chars = key)
    (hrun : (w.machine text).mode ≠ .run)
    (h : w.Writes d skip text seen (key :: items.map Prod.fst) false) :
    (w.writeEnd required key index).Writes d skip text (seen ++ [key]) (items.map Prod.fst)
      false := by
  let w₁ := if index ∈ required then w.write [.requirePostfix] else w
  have hmachine₁ : w₁.machine text = w.machine text := by
    rw [machine_requirePostfix required index h.result, if_neg]
    exact fun hand => hrun hand.1
  have hcounted : w₁.lengthsCounted = w.lengthsCounted := by
    simp only [w₁]
    split <;> rfl
  have hcounts₁ : w₁.Counts d skip text (Inside seen key) := by
    constructor
    · rw [hcounted, ← hchars]
      exact h.counts.mem
    · rw [hcounted, hmachine₁]
      exact h.counts.stored
  have hcounts₂ : (w₁.countLength key).Counts d skip text fun q => Inside seen key q ∨ q = key := by
    apply hcounts₁.countLength hkey (hmachine₁ ▸ h.result)
    · rintro q (⟨k, hk, hq⟩ | ⟨hq, hne⟩) hpq
      · exact Or.inl ⟨k, hk, hpq.trans hq⟩
      · exact absurd (hq.eq_of_length_le hpq.length_le) hne
    · intro _
      rw [hmachine₁, ← hchars]
      exact ⟨h.follows.run_iff (by simp [Writer.chars, length_charsOf]), fun hyes => absurd hyes hrun⟩
  have hmachine₂ : (w₁.countLength key).machine text = w.machine text := by
    rw [machine_countLength, Machine.exec_countLength (hmachine₁ ▸ h.result), hmachine₁]
    simp [hrun]
  have hmachine : (w.writeEnd required key index).machine text = w.machine text := by
    show ((w₁.countLength key).write [.returnIndex (index + 1)]).machine text = _
    rw [machine_write, hmachine₂]
    simp [Machine.execAll, Machine.exec_returnIndex h.result, hrun]
  have hchecks := checks_writeEnd w required key index
  have hchars' : (w.writeEnd required key index).chars = key := by
    rw [Writer.chars, hchecks]
    exact hchars
  constructor
  · rw [hchars']
    constructor
    · intro q
      rw [← inside_seen]
      exact hcounts₂.mem q
    · rw [hmachine, ← hmachine₂]
      exact hcounts₂.stored
  · intro c outer hout k hk
    rw [hchecks] at hout
    exact h.ifs c outer hout k (List.mem_cons_of_mem _ hk)
  · rw [hmachine]
    exact h.result
  · rw [hmachine, hchars', hchecks, ← hchars]
    exact h.follows.mono fun k hk => List.mem_cons_of_mem _ hk
  · rw [hmachine, hchars']
    have hreads := h.reads
    rw [hchars] at hreads
    rw [Machine.Reads, deepest_concat, max_assoc, max_self]
    exact hreads

theorem Before.length_le (hb : w.Before d seen key items)
    (hunmatched : ∀ k ∈ seen, ¬ k <+: letters skip text) (hkey : key <+: letters skip text)
    {k : List QChar} (hk : k ∈ d.keys) (hmatch : k <+: letters skip text) :
    k.length ≤ key.length := by
  by_contra hlong
  have hpre : key <+: k := List.prefix_of_prefix_length_le hkey hmatch (by omega)
  rw [hb.keys] at hk
  rcases List.mem_append.mp hk with hk | hk
  · exact hunmatched k hk hmatch
  rcases List.mem_cons.mp hk with rfl | hk
  · omega
  · exact absurd (prefix_le hpre) (not_le.mpr (List.rel_of_pairwise_cons hb.sorted hk))

theorem Before.deepest_eq (hb : w.Before d seen key items) (hkey : key <+: letters skip text) :
    deepest skip text d.keys = max (deepest skip text seen) key.length := by
  have hlen := agree_eq_length_iff.mpr hkey
  rw [hb.keys]
  apply le_antisymm
  · rw [deepest_le_iff]
    intro k hk
    rcases List.mem_append.mp hk with hk | hk
    · exact (agree_le_deepest hk).trans (le_max_left _ _)
    · apply le_trans _ (le_max_right _ _)
      by_contra hmore
      have hpre : key <+: k := prefix_of_le_agree hkey (by omega)
      rcases List.mem_cons.mp hk with rfl | hk
      · omega
      · exact absurd (prefix_le hpre)
          (not_le.mpr (List.rel_of_pairwise_cons hb.sorted hk))
  · apply max_le
    · rw [deepest_le_iff]
      intro k hk
      exact agree_le_deepest (List.mem_append_left _ hk)
    · rw [← hlen]
      exact agree_le_deepest (by simp)

theorem writeEnd_return (required : List Nat) (index : Nat) (hb : w.Before d seen key items)
    {w' : Writer} (hchars : w'.chars = key)
    (hrun : (w'.machine text).mode = .run) (hunmatched : ∀ k ∈ seen, ¬ k <+: letters skip text)
    (hfresh : key ∉ w'.lengthsCounted → (w'.machine text).Fresh skip text key)
    (h : w'.Writes d skip text seen (key :: items.map Prod.fst) false) :
    key <+: letters skip text ∧
      let m := (w'.writeEnd required key index).machine text
      if Rejects required text index (placeOf skip text (deepest skip text d.keys)) then
        m.result = some 0
      else m.result = some (index + 1) ∧ m.outLength = some (placeOf skip text key.length) := by
  have hmatch : key <+: letters skip text := by
    rw [← hchars]
    exact (h.follows.run_iff (by simp [Writer.chars, length_charsOf])).mp hrun
  refine ⟨hmatch, ?_⟩
  have hch : (w'.machine text).ch = placeOf skip text (deepest skip text d.keys) := by
    rw [hb.deepest_eq hmatch, ← agree_eq_length_iff.mpr hmatch]
    have hreads := h.reads
    rw [hchars] at hreads
    exact hreads
  let w₁ := if index ∈ required then w'.write [.requirePostfix] else w'
  have hmachine₁ := machine_requirePostfix required index h.result
  rw [hch] at hmachine₁
  have hcounted : w₁.lengthsCounted = w'.lengthsCounted := by
    simp only [w₁]
    split <;> rfl
  have hmachine : (w'.writeEnd required key index).machine text =
      (if key ∈ w'.lengthsCounted then w₁.machine text
        else (w₁.machine text).exec text .countLength).exec text (.returnIndex (index + 1)) := by
    show ((w₁.countLength key).write [.returnIndex (index + 1)]).machine text = _
    rw [machine_write, machine_countLength, hcounted]
    rfl
  simp only [hmachine]
  by_cases hreject : Rejects required text index (placeOf skip text (deepest skip text d.keys))
  · have hw₁ : w₁.machine text = { w'.machine text with result := some 0 } := by
      rw [hmachine₁, if_pos ⟨hrun, hreject⟩]
    rw [if_pos hreject, hw₁]
    split <;> rfl
  · have hw₁ : w₁.machine text = w'.machine text := by
      rw [hmachine₁, if_neg fun hand => hreject hand.2]
    rw [if_neg hreject, hw₁]
    by_cases hin : key ∈ w'.lengthsCounted
    · rw [if_pos hin, Machine.exec_returnIndex h.result, if_pos hrun]
      refine ⟨rfl, h.counts.stored key hin hmatch ?_⟩
      intro q hq hql
      exact hb.length_le hunmatched hmatch ((h.counts.mem q).mp hq).1 hql
    · rw [if_neg hin, Machine.exec_countLength h.result, if_pos hrun]
      have hres : ({ w'.machine text with outLength := some (w'.machine text).ch } :
          Machine).result = none := h.result
      rw [Machine.exec_returnIndex hres, if_pos hrun]
      exact ⟨rfl, congrArg some (hfresh hin hrun)⟩

theorem lines_countLength (w : Writer) (p : List QChar) : w.lines <+: (w.countLength p).lines := by
  simp only [Writer.countLength]
  split
  · exact List.prefix_refl _
  · exact List.prefix_append _ _

theorem lines_writeChecks (isOpen : Bool) (more : List QChar) (w : Writer) :
    w.lines <+: (writeChecks d skip key items isOpen more w).lines := by
  induction more generalizing isOpen w with
  | nil => exact List.prefix_refl _
  | cons c more ih =>
    rw [writeChecks]
    apply List.IsPrefix.trans _ (ih false _)
    have hcount : w.lines <+:
        (if key.take w.chars.length ∈ d.keys then w.countLength (key.take w.chars.length)
          else w).lines := by
      split
      · exact lines_countLength w _
      · exact List.prefix_refl _
    apply hcount.trans
    simp only [write]
    apply List.IsPrefix.trans _ (List.prefix_append _ _)
    apply List.IsPrefix.trans _ (List.prefix_append _ _)
    generalize (if key.take w.chars.length ∈ d.keys then _ else w) = w₁
    split
    · exact List.prefix_append _ _
    · exact List.prefix_refl _

theorem lines_writeEnd (w : Writer) : w.lines <+: (w.writeEnd required key index).lines := by
  have hrequire : w.lines <+:
      (if index ∈ required then w.write [.requirePostfix] else w).lines := by
    split
    · exact List.prefix_append _ _
    · exact List.prefix_refl _
  exact (hrequire.trans (lines_countLength _ key)).trans (List.prefix_append _ _)

theorem lines_writeItem (w : Writer) :
    w.lines <+: (w.writeItem d skip required key index items).lines := by
  have hfinish : w.lines <+: w.lines ++ (finishChecksTillKey key w.checks).1 :=
    List.prefix_append _ _
  have hkey : w.lines <+: (w.writeKey d skip key items).lines :=
    hfinish.trans (lines_writeChecks _ _ { w.write _ with checks := _ })
  rw [writeItem_eq]
  exact hkey.trans (lines_writeEnd _)

theorem lines_writeItems (w : Writer) :
    w.lines <+: (writeItems d skip required items w).lines := by
  induction items generalizing w with
  | nil => exact List.prefix_refl _
  | cons item items ih => exact (lines_writeItem w).trans (ih _)

theorem machine_of_returned {w' : Writer} (hlines : w.lines <+: w'.lines)
    (h : (w.machine text).result.isSome) : w'.machine text = w.machine text := by
  obtain ⟨lines, hlines⟩ := hlines
  rw [machine, ← hlines, Machine.execAll_append]
  exact Machine.execAll_of_result h lines

end Items

/-- What the run has returned at the item, with the place it has read up to. -/
def Returns (d : Dictionary) (skip : Bool) (required : List Nat) (text : List QChar)
    (item : List QChar × Nat) (m : Machine) : Prop :=
  if Rejects required text item.2 (placeOf skip text (deepest skip text d.keys)) then
    m.result = some 0
  else m.result = some (item.2 + 1) ∧ m.outLength = some (placeOf skip text item.1.length)

theorem Returns.isSome {d : Dictionary} {skip : Bool} {required : List Nat} {text : List QChar}
    {item : List QChar × Nat} {m : Machine} (h : Returns d skip required text item m) :
    m.result.isSome := by
  rw [Returns] at h
  split at h
  · simp [h]
  · simp [h.1]

theorem writeItems_returns (d : Dictionary) (skip : Bool) (required : List Nat)
    (text : List QChar) (seen : List (List QChar)) (items : List (List QChar × Nat)) {w : Writer}
    (hkeys : d.keys = seen ++ items.map Prod.fst)
    (hlast : (seen = [] ∧ w.checks = []) ∨ w.chars ∈ seen)
    (hunmatched : ∀ k ∈ seen, ¬ k <+: letters skip text)
    (h : w.Writes d skip text seen (items.map Prod.fst) false) :
    let w' := writeItems d skip required items w
    (∃ item ∈ items, item.1 <+: letters skip text ∧
      (∀ k ∈ d.keys, k <+: letters skip text → k.length ≤ item.1.length) ∧
      Returns d skip required text item (w'.machine text)) ∨
    ((∀ item ∈ items, ¬ item.1 <+: letters skip text) ∧ w'.Writes d skip text d.keys [] false) := by
  induction items generalizing seen w with
  | nil =>
    right
    have hseen : d.keys = seen := by simpa using hkeys
    exact ⟨by simp, hseen ▸ h⟩
  | cons item items ih =>
    obtain ⟨key, index⟩ := item
    have hb : w.Before d seen key items := ⟨hkeys, hlast⟩
    obtain ⟨hchars, hwrites, hfresh⟩ := writes_key hb h
    by_cases hrun : ((w.writeKey d skip key items).machine text).mode = .run
    · left
      obtain ⟨hmatch, hreturn⟩ := writeEnd_return required index hb hchars
        hrun hunmatched hfresh hwrites
      have hreturns : Returns d skip required text (key, index)
          ((w.writeItem d skip required key index items).machine text) := hreturn
      refine ⟨(key, index), List.mem_cons_self, hmatch, ?_, ?_⟩
      · intro k hk hkl
        exact hb.length_le hunmatched hmatch hk hkl
      · rw [writeItems, machine_of_returned (lines_writeItems _) hreturns.isSome]
        exact hreturns
    · have hpass := writeEnd_pass required index
        (by simp [hb.keys]) hchars hrun hwrites
      have hnot : ¬ key <+: letters skip text := by
        intro hmatch
        rw [← hchars] at hmatch
        exact hrun ((hwrites.follows.run_iff
          (by simp [Writer.chars, length_charsOf])).mpr hmatch)
      have hstep := ih (seen ++ [key]) (w := w.writeItem d skip required key index items)
        (by simp [hkeys]) (Or.inr ?_) ?_ hpass
      · rcases hstep with ⟨item, hitem, hfound⟩ | ⟨hnone, hdone⟩
        · exact Or.inl ⟨item, List.mem_cons_of_mem _ hitem, hfound⟩
        · right
          refine ⟨?_, hdone⟩
          intro item hitem
          rcases List.mem_cons.mp hitem with rfl | hitem
          · exact hnot
          · exact hnone item hitem
      · have hend : (w.writeItem d skip required key index items).chars = key := by
          rw [writeItem_eq, Writer.chars, checks_writeEnd]
          exact hchars
        simp [hend]
      · intro k hk
        rcases List.mem_append.mp hk with hk | hk
        · exact hunmatched k hk
        · obtain rfl := List.mem_singleton.mp hk
          exact hnot

theorem writes_start (d : Dictionary) (skip : Bool) (text : List QChar) :
    Writes d skip text [] d.keys false {} := by
  constructor
  · constructor
    · simp [Writer.chars, Inside]
    · simp
  · intro c outer hout
    simp at hout
  · rfl
  · exact .runs ⟨rfl, rfl⟩ rfl List.nil_prefix
  · simp [Machine.Reads, Writer.chars, deepest]
    rfl

end Writer

/-- The run of the written code: it returns at the longest key that matches. -/
theorem find_returns (d : Dictionary) (skip : Bool) (required : List Nat) (text : List QChar) :
    (∃ item ∈ d.items, item.1 <+: letters skip text ∧
      (∀ k ∈ d.keys, k <+: letters skip text → k.length ≤ item.1.length) ∧
      Writer.Returns d skip required text item (find d skip required text)) ∨
    ((∀ item ∈ d.items, ¬ item.1 <+: letters skip text) ∧
      (find d skip required text).result = some 0) := by
  have hfind : find d skip required text =
      ((Machine.execAll text ((Writer.writeItems d skip required d.items {}).machine text)
        (Writer.finishChecksTillKey []
          (Writer.writeItems d skip required d.items {}).checks).1).exec text (.returnIndex 0)) := by
    simp [find, writeFindFromDictionary, Writer.machine, Machine.execAll]
  rcases Writer.writeItems_returns d skip required text [] d.items
    (by simp [Dictionary.keys]) (Or.inl ⟨rfl, rfl⟩) (by simp) (Writer.writes_start d skip text)
    with ⟨item, hitem, hmatch, hlongest, hreturns⟩ | ⟨hnone, hdone⟩
  · left
    refine ⟨item, hitem, hmatch, hlongest, ?_⟩
    rw [hfind, Machine.execAll_of_result hreturns.isSome]
    have hstay : Machine.execAll text _ [.returnIndex 0] = _ :=
      Machine.execAll_of_result hreturns.isSome _
    simp only [Machine.execAll, List.foldl_cons, List.foldl_nil] at hstay
    rw [hstay]
    exact hreturns
  · right
    refine ⟨hnone, ?_⟩
    obtain ⟨hfollows, hkept⟩ := Machine.follows_finish [] hdone.result (by simp)
      (by
        intro c outer hout k hk hpre
        left
        obtain rfl := List.mem_singleton.mp hk
        exact (List.prefix_nil.mp hpre).symm)
      hdone.follows
    have hchars : charsOf (Writer.finishChecksTillKey []
        (Writer.writeItems d skip required d.items {}).checks).2.1 = [] :=
      List.prefix_nil.mp (Writer.finish_suffix [] _).2
    have hnil := length_charsOf (Writer.finishChecksTillKey []
        (Writer.writeItems d skip required d.items {}).checks).2.1
    rw [hchars, List.length_nil, eq_comm, List.length_eq_zero_iff] at hnil
    rw [hchars, hnil] at hfollows
    have hrun := hfollows.run_iff (by simp)
    rw [hfind, Machine.exec_returnIndex (hkept.2.2.trans hdone.result), if_pos]
    exact hrun.mpr List.nil_prefix

/-- The lookup finds the longest key that the text starts with: it returns its index, unless
the key requires a postfix that its match does not end with, and stores the length of the
match. Without such a key it returns nothing. -/
def FindsLongest (d : Dictionary) (skip : Bool) (required : List Nat) (text : List QChar) : Prop :=
  let m := find d skip required text
  (∀ item ∈ d.items, item.1 <+: letters skip text →
    (∀ k ∈ d.keys, k <+: letters skip text → k.length ≤ item.1.length) →
      if Writer.Rejects required text item.2 (placeOf skip text item.1.length) then m.result = some 0
      else m.result = some (item.2 + 1) ∧ m.outLength = some (placeOf skip text item.1.length)) ∧
  ((∀ item ∈ d.items, ¬ item.1 <+: letters skip text) → m.result = some 0)

theorem item_unique {d : Dictionary} {item item' : List QChar × Nat} (h : item ∈ d.items)
    (h' : item' ∈ d.items) (hkey : item.1 = item'.1) : item = item' := by
  have hnodup : (d.items.map Prod.fst).Nodup := d.sorted.imp fun hgt => ne_of_gt hgt
  exact List.inj_on_of_nodup_map hnodup h h' hkey

theorem rejected_alike {p q a : Prop} [Decidable p] [Decidable q] {result : Option Nat}
    {index : Nat} (hp : if p then result = some 0 else result = some (index + 1) ∧ a)
    (hq : if q then result = some 0 else result = some (index + 1) ∧ a) : p ↔ q := by
  by_cases h : p <;> by_cases h' : q
  · simp [h, h']
  · rw [if_pos h] at hp
    rw [if_neg h', hp] at hq
    cases hq.1
  · rw [if_neg h] at hp
    rw [if_pos h', hp.1] at hq
    cases hq
  · simp [h, h']

theorem overlapping_nonempty :
    ∀ item ∈ ([([97, 98, 99, 100], 1), ([97, 98], 2)] : List (List QChar × Nat)), item.1 ≠ [] := by
  simp

/-- The keys `abcd` and `ab`, of which the second requires a postfix. -/
def overlapping : Dictionary where
  items :=
    [([⟨97, by decide⟩, ⟨98, by decide⟩, ⟨99, by decide⟩, ⟨100, by decide⟩], 1),
      ([⟨97, by decide⟩, ⟨98, by decide⟩], 2)]
  sorted := List.pairwise_pair.mpr (List.Lex.cons (List.Lex.cons List.Lex.nil))
  nonempty := overlapping_nonempty

end TelegramClient.Codegen
