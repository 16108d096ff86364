import TelegramClient.Codegen.EmojiRuns

/-! What is written for the letters of the keys is run while it is written: what the writer
knows of its checks and counted lengths, and where the run stands. -/

namespace TelegramClient.Codegen

open TelegramClient.Lib

@[simp] theorem charsOf_nil : charsOf [] = [] := rfl

@[simp] theorem charsOf_cons (c : QChar) (t : UsedCheckType)
    (checks : List (QChar × UsedCheckType)) :
    charsOf ((c, t) :: checks) = charsOf checks ++ [c] := by
  simp [charsOf]

theorem length_charsOf (checks : List (QChar × UsedCheckType)) :
    (charsOf checks).length = checks.length := by
  simp [charsOf]

theorem take_eq_iff_prefix {p key : List QChar} : key.take p.length = p ↔ p <+: key :=
  ⟨fun h => h ▸ List.take_prefix _ _, fun h => (List.prefix_iff_eq_take.mp h).symm⟩

theorem charsOf_prefix {checks checks' : List (QChar × UsedCheckType)}
    (h : checks' <:+ checks) : charsOf checks' <+: charsOf checks := by
  obtain ⟨more, rfl⟩ := h
  simp [charsOf]

/-- None of the `keys` has another letter where an `if` is open. -/
def IfsFit (keys : List (List QChar)) (checks : List (QChar × UsedCheckType)) : Prop :=
  ∀ c outer, (c, .byIf) :: outer <:+ checks →
    ∀ k ∈ keys, charsOf outer <+: k → k = charsOf outer ∨ charsOf outer ++ [c] <+: k

namespace Writer

theorem finish_stop {key : List QChar} {checks : List (QChar × UsedCheckType)}
    (h : charsOf checks <+: key) : finishChecksTillKey key checks = ([], checks, false) := by
  cases checks with
  | nil => rfl
  | cons check checks => simp [finishChecksTillKey, take_eq_iff_prefix.mpr h]

theorem finish_go {key : List QChar} {c : QChar} {t : UsedCheckType}
    {checks : List (QChar × UsedCheckType)} (h : ¬ charsOf ((c, t) :: checks) <+: key) :
    finishChecksTillKey key ((c, t) :: checks) =
      (if charsOf checks <+: key ∧ key ≠ charsOf checks then
        ((if t = .bySwitch then [.breakSwitch] else []), checks, true)
      else
        (Machine.leaving t ++ (finishChecksTillKey key checks).1,
          (finishChecksTillKey key checks).2.1, true)) := by
  rw [← take_eq_iff_prefix] at h
  rw [finishChecksTillKey]
  simp only [h, if_false, Machine.leaving]
  by_cases hp : charsOf checks <+: key
  · by_cases hk : key = charsOf checks
    · simp [hk, finish_stop (List.prefix_refl _)]
    · simp [hk, hp, take_eq_iff_prefix.mpr hp, finish_stop hp]
  · have hne : charsOf checks ≠ [] := by
      intro hnil
      simp [hnil] at hp
    have hk : key.take (charsOf checks).length ≠ charsOf checks := by
      rw [ne_eq, take_eq_iff_prefix]
      exact hp
    simp [hp, hne, hk]

theorem finish_flag (key : List QChar) (checks : List (QChar × UsedCheckType)) :
    (finishChecksTillKey key checks).2.2 = true ↔ ¬ charsOf checks <+: key := by
  by_cases h : charsOf checks <+: key
  · simp [finish_stop h, h]
  · cases checks with
    | nil => simp at h
    | cons check checks =>
      rw [finish_go h]
      split <;> simpa using h

theorem finish_suffix (key : List QChar) (checks : List (QChar × UsedCheckType)) :
    (finishChecksTillKey key checks).2.1 <:+ checks ∧
      charsOf (finishChecksTillKey key checks).2.1 <+: key := by
  induction checks with
  | nil => simp [finishChecksTillKey]
  | cons check checks ih =>
    obtain ⟨c, t⟩ := check
    by_cases h : charsOf ((c, t) :: checks) <+: key
    · simpa [finish_stop h] using h
    · rw [finish_go h]
      split
      · rename_i hp
        exact ⟨List.suffix_cons _ _, hp.1⟩
      · exact ⟨ih.1.trans (List.suffix_cons _ _), ih.2⟩

end Writer

namespace Machine

/-- The checks that do not belong to the key are finished. Where a switch stays open for it,
a run that was in another case passes over the rest of it. -/
theorem follows_finish {skip : Bool} {text : List QChar} {rest : List (List QChar)}
    (key : List QChar) {checks : List (QChar × UsedCheckType)} {m : Machine}
    (hr : m.result = none)
    (hgone : ∀ q, q <+: charsOf checks → ¬ q <+: key → ∀ k ∈ rest, ¬ q <+: k)
    (hifs : IfsFit [key] checks)
    (h : m.Follows skip text rest (charsOf checks) (checks.map Prod.snd)) :
    let r := Writer.finishChecksTillKey key checks
    (execAll text m r.1).Follows skip text rest (charsOf r.2.1)
        (if r.2.2 ∧ key ≠ charsOf r.2.1 then .bySwitch :: r.2.1.map Prod.snd
          else r.2.1.map Prod.snd) ∧
      m.Kept (execAll text m r.1) := by
  induction checks generalizing m with
  | nil => exact ⟨h, rfl, rfl, rfl⟩
  | cons check checks ih =>
    obtain ⟨c, t⟩ := check
    by_cases hp : charsOf ((c, t) :: checks) <+: key
    · simp only [Writer.finish_stop hp]
      exact ⟨h, rfl, rfl, rfl⟩
    · rw [Writer.finish_go hp]
      have hlen : (checks.map Prod.snd).length = (charsOf checks).length := by
        simp [length_charsOf]
      rw [charsOf_cons] at h hp
      split
      · -- the switch of the letters that stay is open
        rename_i hstay
        have ht : t = .bySwitch := by
          cases t with
          | bySwitch => rfl
          | byIf =>
            exfalso
            rcases hifs c checks (List.suffix_refl _) key (by simp) hstay.1 with heq | hmore
            · exact hstay.2 heq
            · exact hp hmore
        subst ht
        have hbreak := follows_break hlen hr (hgone _ (by simp) hp) h
        simpa [execAll, hstay.2] using hbreak
      · rename_i hstay
        obtain ⟨hleft, hkept⟩ := follows_leaving hlen hr h
        have hsub : charsOf checks <+: charsOf ((c, t) :: checks) :=
          charsOf_prefix (List.suffix_cons _ _)
        obtain ⟨hfollows, hkept'⟩ := ih (hkept.2.2.trans hr)
          (fun q hq hnot => hgone q (hq.trans hsub) hnot)
          (fun c outer hout => hifs c outer (hout.trans (List.suffix_cons _ _))) hleft
        simp only [execAll_append]
        refine ⟨?_, hkept.trans hkept'⟩
        by_cases hin : charsOf checks <+: key
        · have hkey : key = charsOf checks := by
            by_contra hne
            exact hstay ⟨hin, hne⟩
          simpa [Writer.finish_stop hin, ← hkey] using hfollows
        · simpa [(Writer.finish_flag key checks).mpr hin] using hfollows

theorem Follows.congr {skip : Bool} {text : List QChar} {rest : List (List QChar)}
    {p : List QChar} {braces : List UsedCheckType} {m m' : Machine} (hmode : m'.mode = m.mode)
    (hentered : m'.entered = m.entered) (hch : m'.ch = m.ch)
    (h : m.Follows skip text rest p braces) : m'.Follows skip text rest p braces := by
  cases h with
  | runs h hlen hp => exact .runs (by simpa [Runs, hmode, hentered] using h) hlen hp
  | skips h hrest => exact .skips (by simpa [Skips, hmode, hentered] using h) hrest
  | seeks letter h hletter hch' =>
    exact .seeks letter (by simpa [Seeks, hmode, hentered] using h) hletter (hch.trans hch')

theorem Follows.mono {skip : Bool} {text : List QChar} {rest rest' : List (List QChar)}
    {p : List QChar} {braces : List UsedCheckType} {m : Machine} (hsub : ∀ k ∈ rest', k ∈ rest)
    (h : m.Follows skip text rest p braces) : m.Follows skip text rest' p braces := by
  cases h with
  | runs h hlen hp => exact .runs h hlen hp
  | skips h hrest => exact .skips h fun k hk => hrest k (hsub k hk)
  | seeks letter h hletter hch => exact .seeks letter h hletter hch

/-- Inside of all braces the text has gone with the letters, and only there. -/
theorem Follows.run_iff {skip : Bool} {text : List QChar} {rest : List (List QChar)}
    {p : List QChar} {braces : List UsedCheckType} {m : Machine}
    (hlen : braces.length = p.length) (h : m.Follows skip text rest p braces) :
    m.mode = .run ↔ p <+: letters skip text := by
  rw [← agree_eq_length_iff]
  cases h with
  | runs h _ hp => simpa [h.1] using agree_eq_length_iff.mpr hp
  | skips h _ =>
    have := h.lt
    obtain ⟨skipped, -, -, hmode, -⟩ := h
    simp [hmode]
    omega
  | seeks letter h _ _ =>
    have := h.lt
    obtain ⟨skipped, outer, -, -, hmode, -⟩ := h
    simp [hmode]
    omega

theorem exec_countLength {text : List QChar} {m : Machine} (hr : m.result = none) :
    m.exec text .countLength =
      if m.mode = .run then { m with outLength := some m.ch } else m := by
  obtain ⟨mode, entered, ch, out, result⟩ := m
  obtain rfl : result = none := hr
  cases mode <;> rfl

theorem exec_requirePostfix {text : List QChar} {m : Machine} (hr : m.result = none) :
    m.exec text .requirePostfix =
      if m.mode = .run ∧ ¬ postfixBefore text m.ch then { m with result := some 0 } else m := by
  obtain ⟨mode, entered, ch, out, result⟩ := m
  obtain rfl : result = none := hr
  cases mode with
  | run => by_cases h : postfixBefore text ch <;> simp [runLine, h]
  | skip n => rfl
  | seek letter n => rfl

theorem exec_returnIndex {text : List QChar} {m : Machine} (hr : m.result = none) (value : Nat) :
    m.exec text (.returnIndex value) =
      if m.mode = .run then { m with result := some value } else m := by
  obtain ⟨mode, entered, ch, out, result⟩ := m
  obtain rfl : result = none := hr
  cases mode <;> rfl

end Machine

/-! ## The deepest letter -/

/-- The number of letters of the text up to which it goes with some key. -/
def deepest (skip : Bool) (text : List QChar) (keys : List (List QChar)) : Nat :=
  (keys.map (agree · (letters skip text))).foldr max 0

section Deepest

variable {skip : Bool} {text : List QChar} {keys : List (List QChar)}

theorem deepest_le_iff {n : Nat} :
    deepest skip text keys ≤ n ↔ ∀ k ∈ keys, agree k (letters skip text) ≤ n := by
  induction keys with
  | nil => simp [deepest]
  | cons k keys ih =>
    simp only [deepest, List.map_cons, List.foldr_cons] at ih ⊢
    simp [ih]

theorem agree_le_deepest {k : List QChar} (hk : k ∈ keys) :
    agree k (letters skip text) ≤ deepest skip text keys :=
  deepest_le_iff.mp le_rfl k hk

theorem deepest_concat (k : List QChar) : deepest skip text (keys ++ [k]) =
    max (deepest skip text keys) (agree k (letters skip text)) := by
  apply le_antisymm
  · rw [deepest_le_iff]
    intro k' hk'
    rcases List.mem_append.mp hk' with hk' | hk'
    · exact (agree_le_deepest hk').trans (le_max_left _ _)
    · obtain rfl := List.mem_singleton.mp hk'
      exact le_max_right _ _
  · apply max_le
    · rw [deepest_le_iff]
      intro k' hk'
      exact agree_le_deepest (List.mem_append_left _ hk')
    · exact agree_le_deepest (by simp)

end Deepest

namespace Writer

/-- The run of what is written so far. -/
def machine (w : Writer) (text : List QChar) : Machine :=
  Machine.execAll text {} w.lines

@[simp] theorem machine_write (w : Writer) (text : List QChar) (lines : List Line) :
    (w.write lines).machine text = Machine.execAll text (w.machine text) lines := by
  simp [machine, write, Machine.execAll_append]

@[simp] theorem machine_setChecks (w : Writer) (text : List QChar)
    (checks : List (QChar × UsedCheckType)) :
    ({ w with checks := checks } : Writer).machine text = w.machine text := rfl

/-- Which lengths are counted, and that the last length the run has stored is that of the
longest key among them that matches. -/
structure Counts (d : Dictionary) (skip : Bool) (text : List QChar)
    (inside : List QChar → Prop) (w : Writer) : Prop where
  mem : ∀ q, q ∈ w.lengthsCounted ↔ q ∈ d.keys ∧ inside q
  stored : ∀ q ∈ w.lengthsCounted, q <+: letters skip text →
    (∀ q' ∈ w.lengthsCounted, q' <+: letters skip text → q'.length ≤ q.length) →
    (w.machine text).outLength = some (placeOf skip text q.length)

section Counts

variable {d : Dictionary} {skip : Bool} {text : List QChar} {inside inside' : List QChar → Prop}
  {w : Writer} {p : List QChar}

theorem Counts.congr (hinside : ∀ q ∈ d.keys, inside q ↔ inside' q)
    (h : w.Counts d skip text inside) : w.Counts d skip text inside' := by
  constructor
  · intro q
    rw [h.mem]
    constructor
    · rintro ⟨hq, hin⟩
      exact ⟨hq, (hinside q hq).mp hin⟩
    · rintro ⟨hq, hin⟩
      exact ⟨hq, (hinside q hq).mpr hin⟩
  · exact h.stored

theorem machine_countLength (w : Writer) (text : List QChar) (p : List QChar) :
    (w.countLength p).machine text = if p ∈ w.lengthsCounted then w.machine text
      else (w.machine text).exec text .countLength := by
  by_cases h : p ∈ w.lengthsCounted
  · simp [countLength, h]
  · simp only [countLength, h, if_false]
    exact w.machine_write text [.countLength]

theorem countLength_same (hr : (w.machine text).result = none) (p : List QChar) :
    let m' := (w.countLength p).machine text
    m'.mode = (w.machine text).mode ∧ m'.entered = (w.machine text).entered ∧
      m'.ch = (w.machine text).ch ∧ m'.result = none := by
  simp only [machine_countLength, Machine.exec_countLength hr]
  split
  · exact ⟨rfl, rfl, rfl, hr⟩
  · split <;> exact ⟨rfl, rfl, rfl, hr⟩

theorem Counts.countLength (hp : p ∈ d.keys) (hr : (w.machine text).result = none)
    (hclosed : ∀ q, inside q → p <+: q → inside p)
    (hnew : p ∉ w.lengthsCounted → ((w.machine text).mode = .run ↔ p <+: letters skip text) ∧
      ((w.machine text).mode = .run → (w.machine text).ch = placeOf skip text p.length))
    (h : w.Counts d skip text inside) :
    (w.countLength p).Counts d skip text fun q => inside q ∨ q = p := by
  by_cases hin : p ∈ w.lengthsCounted
  · have hsame : w.countLength p = w := by simp [Writer.countLength, hin]
    rw [hsame]
    apply h.congr
    intro q _
    constructor
    · exact Or.inl
    · rintro (hq | rfl)
      · exact hq
      · exact ((h.mem q).mp hin).2
  · obtain ⟨hrun, hch⟩ := hnew hin
    have hcounted : (w.countLength p).lengthsCounted = p :: w.lengthsCounted := by
      simp [Writer.countLength, hin, write]
    -- a counted key that goes on behind `p` would have counted `p`
    have hnot : ∀ q ∈ w.lengthsCounted, ¬ p <+: q := by
      intro q hq hpq
      exact hin ((h.mem p).mpr ⟨hp, hclosed q ((h.mem q).mp hq).2 hpq⟩)
    constructor
    · intro q
      rw [hcounted, List.mem_cons, h.mem]
      constructor
      · rintro (rfl | ⟨hq, hi⟩)
        · exact ⟨hp, Or.inr rfl⟩
        · exact ⟨hq, Or.inl hi⟩
      · rintro ⟨hq, hi | rfl⟩
        · exact Or.inr ⟨hq, hi⟩
        · exact Or.inl rfl
    · intro q hq hql hmax
      rw [hcounted] at hq hmax
      rw [machine_countLength, if_neg hin, Machine.exec_countLength hr]
      by_cases hm : (w.machine text).mode = .run
      · have hpl := hrun.mp hm
        have hqp : q = p := by
          rcases List.mem_cons.mp hq with rfl | hq
          · rfl
          · have hle := hmax p (by simp) hpl
            exact absurd (List.prefix_of_prefix_length_le hpl hql hle) (hnot q hq)
        simp [hm, hqp, hch hm]
      · have hpl : ¬ p <+: letters skip text := fun hpl => hm (hrun.mpr hpl)
        rw [if_neg hm]
        rcases List.mem_cons.mp hq with rfl | hq
        · exact absurd hql hpl
        · exact h.stored q hq hql fun q' hq' => hmax q' (List.mem_cons_of_mem _ hq')

end Counts

/-- A key whose length is counted: it stands before a key in `seen` or before `p`. -/
def Inside (seen : List (List QChar)) (p q : List QChar) : Prop :=
  (∃ k ∈ seen, q <+: k) ∨ (q <+: p ∧ q ≠ p)

/-- What is written so far, with the keys `seen` and a part `w.chars` of a key in `rest`, and
its run. When `isOpen`, a switch is open for the next letter. -/
structure Writes (d : Dictionary) (skip : Bool) (text : List QChar)
    (seen rest : List (List QChar)) (isOpen : Bool) (w : Writer) : Prop where
  counts : w.Counts d skip text (Inside seen w.chars)
  ifs : IfsFit rest w.checks
  result : (w.machine text).result = none
  follows : (w.machine text).Follows skip text rest w.chars
    (if isOpen then .bySwitch :: w.checks.map Prod.snd else w.checks.map Prod.snd)
  reads : (w.machine text).Reads skip text (deepest skip text seen) w.chars

/-- An `if` is used where the keys that stand together with the key have no other letter. -/
theorem canUseIf_fits {key : List QChar} {n : Nat} {c : QChar}
    {items : List (List QChar × Nat)} (hc : key[n]? = some c)
    (hsorted : (key :: items.map Prod.fst).Pairwise (· > ·))
    (h : canUseIfForCheck key n items) :
    ∀ k ∈ items.map Prod.fst, key.take n <+: k → k = key.take n ∨ key.take n ++ [c] <+: k := by
  induction items with
  | nil => simp
  | cons item items ih =>
    obtain ⟨nextKey, index⟩ := item
    simp only [List.map_cons, List.pairwise_cons] at hsorted
    obtain ⟨hkey, hnext, hitems⟩ := hsorted
    have hn : n < key.length := by
      by_contra hge
      rw [List.getElem?_eq_none (by omega)] at hc
      cases hc
    have hlen : (key.take n).length = n := by
      simp
      omega
    rw [canUseIfForCheck] at h
    by_cases hstart : nextKey.take n = key.take n
    · have hrest := ih (by
        rw [List.pairwise_cons]
        exact ⟨fun k hk => hkey k (List.mem_cons_of_mem _ hk), hitems⟩)
      by_cases hother : n < nextKey.length ∧ nextKey[n]? ≠ key[n]?
      · simp only [hstart, ne_eq, not_true, if_false] at h
        rw [if_pos hother] at h
        cases h
      · simp only [hstart, ne_eq, not_true, if_false] at h
        rw [if_neg hother] at h
        intro k hk hpk
        rcases List.mem_cons.mp hk with rfl | hk
        · by_cases hlt : n < k.length
          · right
            have hkc : k[n]? = some c := by
              rw [← hc]
              by_contra hne
              exact hother ⟨hlt, hne⟩
            have htake : k.take (n + 1) = key.take n ++ [c] := by
              rw [List.take_add_one, hkc, hstart]
              rfl
            exact htake ▸ List.take_prefix _ _
          · left
            rw [← hstart, List.take_of_length_le (by omega)]
        · exact hrest h k hk hpk
    · intro k hk hpk
      exfalso
      apply hstart
      have hbetween : key.take n <+: nextKey := by
        rcases List.mem_cons.mp hk with rfl | hk
        · exact hpk
        · exact prefix_of_between (hkey nextKey (by simp)).le (hnext k hk).le
            (List.take_prefix _ _) hpk
      have := List.prefix_iff_eq_take.mp hbetween
      rw [hlen] at this
      exact this.symm

/-- The lines of a check, by the kind of the check. -/
def checkLines (skip isOpen usedIf : Bool) (c : QChar) : List Line :=
  (if !isOpen && !usedIf then [.openSwitch] else []) ++
    [if usedIf then .openIf c else .caseOf c, .next skip]

theorem checked_checkLines {skip : Bool} {text : List QChar} {rest : List (List QChar)}
    {p k : List QChar} {c : QChar} {braces : List UsedCheckType} {m : Machine}
    {isOpen usedIf : Bool} (hlen : braces.length = p.length) (hr : m.result = none)
    (hfresh : isOpen = false → m.Fresh skip text p) (hk : k ∈ rest) (hpk : p ++ [c] <+: k)
    (hif : usedIf → isOpen = false ∧ ∀ k ∈ rest, p <+: k → k = p ∨ p ++ [c] <+: k)
    (h : m.Follows skip text rest p (if isOpen then .bySwitch :: braces else braces)) :
    Machine.Checked skip text rest (p ++ [c])
      ((if usedIf then .byIf else .bySwitch) :: braces) m
      (Machine.execAll text m (checkLines skip isOpen usedIf c)) := by
  cases isOpen with
  | true =>
    cases usedIf with
    | true => exact absurd (hif rfl).1 (by simp)
    | false => simpa [checkLines] using Machine.checked_caseOf hlen hr hk hpk h
  | false =>
    cases usedIf with
    | true => simpa [checkLines] using Machine.checked_openIf hlen hr (hfresh rfl) (hif rfl).2 h
    | false =>
      simpa [checkLines] using Machine.checked_openSwitch hlen hr (hfresh rfl) hk hpk h

theorem inside_concat {seen : List (List QChar)} {p q : List QChar} {c : QChar} :
    Inside seen (p ++ [c]) q ↔ Inside seen p q ∨ q = p := by
  have hprefix : (q <+: p ++ [c] ∧ q ≠ p ++ [c]) ↔ q <+: p := by
    rw [List.prefix_concat_iff]
    constructor
    · rintro ⟨heq | hq, hne⟩
      · exact absurd heq hne
      · exact hq
    · intro hq
      refine ⟨Or.inr hq, ?_⟩
      rintro rfl
      simpa using hq.length_le
  rw [Inside, Inside, hprefix]
  constructor
  · rintro (hk | hq)
    · exact Or.inl (Or.inl hk)
    · by_cases heq : q = p
      · exact Or.inr heq
      · exact Or.inl (Or.inr ⟨hq, heq⟩)
  · rintro ((hk | hq) | rfl)
    · exact Or.inl hk
    · exact Or.inr hq.1
    · exact Or.inr (List.prefix_refl _)

section Checks

variable {d : Dictionary} {skip : Bool} {text : List QChar} {seen : List (List QChar)}
  {key : List QChar} {items : List (List QChar × Nat)} {isOpen : Bool} {w : Writer}

/-- The length of the letters `w.chars` is counted when they are a key. -/
theorem writes_counted {rest : List (List QChar)}
    (hopen : isOpen → ∃ k ∈ seen, w.chars <+: k)
    (hfresh : isOpen = false → (w.machine text).Fresh skip text w.chars)
    (h : w.Writes d skip text seen rest isOpen) :
    let w' := if w.chars ∈ d.keys then w.countLength w.chars else w
    w'.checks = w.checks ∧
      w'.Counts d skip text (fun q => Inside seen w.chars q ∨ q = w.chars) ∧
      (w'.machine text).mode = (w.machine text).mode ∧
      (w'.machine text).entered = (w.machine text).entered ∧
      (w'.machine text).ch = (w.machine text).ch ∧ (w'.machine text).result = none := by
  intro w'
  by_cases hp : w.chars ∈ d.keys
  · have hw' : w' = w.countLength w.chars := by simp [w', hp]
    rw [hw']
    refine ⟨?_, ?_, countLength_same h.result _⟩
    · by_cases hin : w.chars ∈ w.lengthsCounted <;> simp [Writer.countLength, hin, write]
    · apply h.counts.countLength hp h.result
      · rintro q (⟨k, hk, hqk⟩ | ⟨hq, hne⟩) hpq
        · exact Or.inl ⟨k, hk, hpq.trans hqk⟩
        · exact absurd (hq.eq_of_length_le hpq.length_le) hne
      · intro hnew
        have hnotopen : isOpen = false := by
          by_contra hyes
          exact hnew ((h.counts.mem _).mpr ⟨hp, Or.inl (hopen (by simpa using hyes))⟩)
        have hfollows := h.follows
        simp only [hnotopen] at hfollows
        exact ⟨hfollows.run_iff (by simp [Writer.chars, length_charsOf]), hfresh hnotopen⟩
  · have hw' : w' = w := by simp [w', hp]
    rw [hw']
    refine ⟨rfl, ?_, rfl, rfl, rfl, h.result⟩
    apply h.counts.congr
    intro q hq
    constructor
    · exact Or.inl
    · rintro (hin | rfl)
      · exact hin
      · exact absurd hq hp

theorem ifsFit_cons {rest : List (List QChar)} {checks : List (QChar × UsedCheckType)} {c : QChar}
    {checkType : UsedCheckType} (h : IfsFit rest checks)
    (hc : checkType = .byIf → ∀ k ∈ rest, charsOf checks <+: k →
      k = charsOf checks ∨ charsOf checks ++ [c] <+: k) :
    IfsFit rest ((c, checkType) :: checks) := by
  intro c' outer hout
  rcases List.suffix_cons_iff.mp hout with heq | hout
  · obtain ⟨hhead, rfl⟩ := List.cons.inj heq
    obtain ⟨rfl, htype⟩ := Prod.mk.inj hhead
    exact hc htype.symm
  · exact h c' outer hout

theorem writes_check {c : QChar} {more : List QChar}
    (hsorted : (key :: items.map Prod.fst).Pairwise (· > ·))
    (hkey : w.chars ++ c :: more = key) (hopen : isOpen → ∃ k ∈ seen, w.chars <+: k)
    (hfresh : isOpen = false → (w.machine text).Fresh skip text w.chars)
    (h : w.Writes d skip text seen (key :: items.map Prod.fst) isOpen) :
    ∃ w' : Writer, writeChecks d skip key items isOpen (c :: more) w =
        writeChecks d skip key items false more w' ∧
      w'.chars = w.chars ++ [c] ∧
      w'.Writes d skip text seen (key :: items.map Prod.fst) false ∧
      (w'.machine text).Fresh skip text w'.chars := by
  obtain ⟨hchecks, hcounts, hmode, hentered, hch, hresult⟩ := writes_counted hopen hfresh h
  have htake : key.take w.chars.length = w.chars := by simp [← hkey]
  have hletter : key[w.chars.length]? = some c := by simp [← hkey]
  have hpc : w.chars ++ [c] <+: key := ⟨more, by simp [← hkey]⟩
  let usedIf := !isOpen && canUseIfForCheck key w.chars.length items
  let w₁ := if w.chars ∈ d.keys then w.countLength w.chars else w
  let w₂ : Writer :=
    { w₁.write (checkLines skip isOpen usedIf c) with
      checks := (c, if usedIf then .byIf else .bySwitch) :: w.checks }
  have hmachine : w₂.machine text =
      Machine.execAll text (w₁.machine text) (checkLines skip isOpen usedIf c) :=
    machine_write w₁ text _
  have hfits : usedIf → isOpen = false ∧ ∀ k ∈ key :: items.map Prod.fst, w.chars <+: k →
      k = w.chars ∨ w.chars ++ [c] <+: k := by
    intro hused
    obtain ⟨hnot, hcan⟩ : isOpen = false ∧ canUseIfForCheck key w.chars.length items := by
      simpa [usedIf] using hused
    refine ⟨hnot, ?_⟩
    intro k hk hpk
    rcases List.mem_cons.mp hk with rfl | hk
    · exact Or.inr hpc
    · have := canUseIf_fits hletter hsorted hcan k hk
      rw [htake] at this
      exact this hpk
  have hchecked := checked_checkLines
    (by simp [Writer.chars, length_charsOf]) hresult
    (fun hnot hrun => hch.trans (hfresh hnot (hmode ▸ hrun)))
    List.mem_cons_self hpc hfits (h.follows.congr hmode hentered hch)
  rw [← hmachine] at hchecked
  have hchars : w₂.chars = w.chars ++ [c] := by simp [w₂, Writer.chars]
  refine ⟨w₂, ?_, hchars, ?_, ?_⟩
  · rw [writeChecks]
    congr 1
    simp only [htake]
    show _ = w₂
    have hw₁ : (if w.chars ∈ d.keys then w.countLength w.chars else w) = w₁ := rfl
    rw [hw₁]
    cases isOpen <;> cases hcan : canUseIfForCheck key w.chars.length items <;>
      simp [w₂, usedIf, hcan, write, checkLines, hchecks, w₁]
  · constructor
    · rw [hchars]
      constructor
      · intro q
        rw [inside_concat]
        exact hcounts.mem q
      · intro q hq hql hmax
        rw [hchecked.outLength]
        exact hcounts.stored q hq hql hmax
    · exact ifsFit_cons h.ifs fun htype => (hfits (by
        by_contra hnot
        simp [hnot] at htype)).2
    · exact hchecked.result
    · rw [hchars]
      exact hchecked.follows
    · rw [hchars]
      apply hchecked.reads
      rw [List.dropLast_concat]
      exact hch.trans h.reads
  · rw [hchars]
    exact hchecked.fresh

theorem writes_writeChecks {more : List QChar}
    (hsorted : (key :: items.map Prod.fst).Pairwise (· > ·)) (hkey : w.chars ++ more = key)
    (hmore : isOpen → more ≠ []) (hopen : isOpen → ∃ k ∈ seen, w.chars <+: k)
    (hfresh : isOpen = false → (w.machine text).Fresh skip text w.chars)
    (h : w.Writes d skip text seen (key :: items.map Prod.fst) isOpen) :
    let w' := writeChecks d skip key items isOpen more w
    w'.chars = key ∧ w'.Writes d skip text seen (key :: items.map Prod.fst) false ∧
      (w'.machine text).Fresh skip text key := by
  induction more generalizing w isOpen with
  | nil =>
    obtain rfl : isOpen = false := by
      by_contra hyes
      exact hmore (by simpa using hyes) rfl
    obtain rfl : w.chars = key := by simpa using hkey
    exact ⟨rfl, h, hfresh rfl⟩
  | cons c more ih =>
    obtain ⟨w', heq, hchars, hwrites, hfresh'⟩ := writes_check hsorted hkey hopen hfresh h
    simp only [heq]
    apply ih
    · simp [hchars, ← hkey]
    · simp
    · simp
    · intro _
      exact hfresh'
    · exact hwrites

end Checks

end Writer

end TelegramClient.Codegen
