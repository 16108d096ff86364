import TelegramClient.Codegen.EmojiFind

/-! Where a run of the written lookup code stands: the letters a text spells, the braces a
run is in or passes over, and what the lines do to it. -/

namespace TelegramClient.Codegen

open TelegramClient.Lib

/-- The place behind the first `n` letters. -/
def placeOf (skipPostfix : Bool) (text : List QChar) (n : Nat) : Nat :=
  (nextPlace skipPostfix text)^[n] 0

theorem lt_nextPlace (skipPostfix : Bool) (text : List QChar) (n : Nat) :
    n < nextPlace skipPostfix text n := by
  simp only [nextPlace]
  split <;> omega

/-- The letters from a place on, without the postfixes that are skipped. -/
def lettersFrom (skipPostfix : Bool) (text : List QChar) (n : Nat) : List QChar :=
  if h : n < text.length then
    text[n] :: lettersFrom skipPostfix text (nextPlace skipPostfix text n)
  else []
termination_by text.length - n
decreasing_by
  have := lt_nextPlace skipPostfix text n
  omega

/-- The letters of a text. A key matches when it is a prefix of them. -/
def letters (skipPostfix : Bool) (text : List QChar) : List QChar :=
  lettersFrom skipPostfix text 0

section Letters

variable (skip : Bool) (text : List QChar)

@[simp] theorem placeOf_zero : placeOf skip text 0 = 0 := rfl

theorem placeOf_succ (n : Nat) :
    placeOf skip text (n + 1) = nextPlace skip text (placeOf skip text n) :=
  Function.iterate_succ_apply' _ _ _

theorem placeOf_strictMono : StrictMono (placeOf skip text) := by
  apply strictMono_nat_of_lt_succ
  intro n
  rw [placeOf_succ]
  exact lt_nextPlace skip text _

theorem le_iterate_nextPlace (n i : Nat) : n ≤ (nextPlace skip text)^[i] n := by
  induction i with
  | zero => simp
  | succ i ih =>
    rw [Function.iterate_succ_apply']
    exact ih.trans (lt_nextPlace skip text _).le

theorem lettersFrom_get (n i : Nat) :
    (lettersFrom skip text n)[i]? = text[(nextPlace skip text)^[i] n]? := by
  induction i generalizing n with
  | zero =>
    rw [lettersFrom]
    by_cases h : n < text.length <;> simp [h]
  | succ i ih =>
    rw [lettersFrom]
    by_cases h : n < text.length
    · simp [h, ih]
    · have := le_iterate_nextPlace skip text n (i + 1)
      have hnone : text[(nextPlace skip text)^[i + 1] n]? = none :=
        List.getElem?_eq_none (by omega)
      rw [hnone]
      simp [h]

theorem letters_get (i : Nat) : (letters skip text)[i]? = text[placeOf skip text i]? :=
  lettersFrom_get skip text 0 i

end Letters

/-! ## Braces -/

namespace Machine

variable {m : Machine} {braces : List UsedCheckType} {t : UsedCheckType}

/-- Inside of all the braces. -/
def Runs (m : Machine) (braces : List UsedCheckType) : Prop :=
  m.mode = .run ∧ m.entered = braces

/-- Inside of the `level` outer braces, before the end of the next one. -/
def Skips (m : Machine) (braces : List UsedCheckType) (level : Nat) : Prop :=
  ∃ skipped, skipped ≠ [] ∧ braces = skipped ++ m.entered ∧ m.mode = .skip skipped.length ∧
    m.entered.length = level

/-- Inside of the `level` outer braces and of a switch, before a case of it. -/
def Seeks (m : Machine) (braces : List UsedCheckType) (level : Nat) (letter : QChar) : Prop :=
  ∃ skipped outer, m.entered = .bySwitch :: outer ∧ braces = skipped ++ m.entered ∧
    m.mode = .seek letter skipped.length ∧ outer.length = level

/-- Nothing but the place in the braces changes. -/
def Kept (m m' : Machine) : Prop :=
  m'.ch = m.ch ∧ m'.outLength = m.outLength ∧ m'.result = m.result

theorem Kept.trans {m m' m'' : Machine} (h : m.Kept m') (h' : m'.Kept m'') : m.Kept m'' :=
  ⟨h'.1.trans h.1, h'.2.1.trans h.2.1, h'.2.2.trans h.2.2⟩

theorem execAll_append (text : List QChar) (m : Machine) (a b : List Line) :
    execAll text m (a ++ b) = execAll text (execAll text m a) b := by
  simp [execAll]

theorem execAll_of_result {text : List QChar} {m : Machine} (h : m.result.isSome)
    (lines : List Line) : execAll text m lines = m := by
  induction lines with
  | nil => rfl
  | cons line lines ih => simpa [execAll, exec, h] using ih

section Lines

variable {text : List QChar} {m : Machine} {level : Nat} {letter : QChar}

@[simp] theorem exec_run (entered : List UsedCheckType) (ch : Nat) (out : Option Nat)
    (line : Line) : exec text ⟨.run, entered, ch, out, none⟩ line =
      runLine text ⟨.run, entered, ch, out, none⟩ line := rfl

@[simp] theorem exec_skip (n : Nat) (entered : List UsedCheckType) (ch : Nat)
    (out : Option Nat) (line : Line) : exec text ⟨.skip n, entered, ch, out, none⟩ line =
      skipLine ⟨.skip n, entered, ch, out, none⟩ n line := rfl

@[simp] theorem exec_seek (n : Nat) (entered : List UsedCheckType) (ch : Nat)
    (out : Option Nat) (line : Line) :
    exec text ⟨.seek letter n, entered, ch, out, none⟩ line =
      seekLine ⟨.seek letter n, entered, ch, out, none⟩ letter n line := rfl

@[simp] theorem runLine_breakSwitch (mode : Mode) (entered : List UsedCheckType) (ch : Nat)
    (out result : Option Nat) :
    runLine text ⟨mode, .bySwitch :: entered, ch, out, result⟩ .breakSwitch =
      ⟨.skip 1, entered, ch, out, result⟩ := rfl

@[simp] theorem runLine_close :
    runLine text m .close = { m with entered := m.entered.tail } := rfl

@[simp] theorem skipLine_close_one : skipLine m 1 .close = { m with mode := .run } := rfl

@[simp] theorem skipLine_close (n : Nat) :
    skipLine m (n + 1 + 1) .close = { m with mode := .skip (n + 1) } := rfl

@[simp] theorem skipLine_breakSwitch (n : Nat) : skipLine m n .breakSwitch = m := rfl

@[simp] theorem seekLine_close_zero :
    seekLine m letter 0 .close = { m with mode := .run, entered := m.entered.tail } := rfl

@[simp] theorem seekLine_close (n : Nat) :
    seekLine m letter (n + 1) .close = { m with mode := .seek letter n } := rfl

@[simp] theorem seekLine_breakSwitch (n : Nat) : seekLine m letter n .breakSwitch = m := rfl

@[simp] theorem runLine_next (skip : Bool) :
    runLine text m (.next skip) = { m with ch := nextPlace skip text m.ch } := rfl

@[simp] theorem seekLine_next (n : Nat) (skip : Bool) :
    seekLine m letter n (.next skip) = m := rfl

@[simp] theorem seekLine_caseOf (n : Nat) (keyChar : QChar) :
    seekLine m letter n (.caseOf keyChar) =
      if n = 0 ∧ keyChar = letter then { m with mode := .run } else m := rfl

/-- The lines at the end of a check. -/
def leaving (t : UsedCheckType) : List Line :=
  (if t = .bySwitch then [.breakSwitch] else []) ++ [.close]

theorem runs_leaving (text : List QChar) (hr : m.result = none) (h : m.Runs (t :: braces)) :
    (execAll text m (leaving t)).Runs braces ∧ m.Kept (execAll text m (leaving t)) := by
  obtain ⟨mode, entered, ch, out, result⟩ := m
  obtain ⟨rfl, rfl⟩ := h
  obtain rfl : result = none := hr
  cases t <;> simp [leaving, execAll, Runs, Kept]

theorem skips_leaving (text : List QChar) (hr : m.result = none) (h : m.Skips (t :: braces) level) :
    (if level = braces.length then (execAll text m (leaving t)).Runs braces
      else (execAll text m (leaving t)).Skips braces level) ∧
      m.Kept (execAll text m (leaving t)) := by
  obtain ⟨mode, entered, ch, out, result⟩ := m
  obtain ⟨skipped, hne, hbraces, rfl, rfl⟩ := h
  obtain rfl : result = none := hr
  cases skipped with
  | nil => exact absurd rfl hne
  | cons b skipped =>
    obtain ⟨rfl, rfl⟩ : t = b ∧ braces = skipped ++ entered := by simpa using hbraces
    cases skipped with
    | nil => cases t <;> simp [leaving, execAll, Runs, Kept]
    | cons b' skipped =>
      have hlevel : entered.length ≠ (b' :: skipped ++ entered).length := by simp; omega
      have hclose : execAll text ⟨.skip (t :: b' :: skipped).length, entered, ch, out, none⟩
          (leaving t) = ⟨.skip (b' :: skipped).length, entered, ch, out, none⟩ := by
        cases t <;> simp [leaving, execAll]
      simp only [hlevel, if_false, hclose]
      exact ⟨⟨b' :: skipped, by simp, rfl, rfl, rfl⟩, rfl, rfl, rfl⟩

theorem seeks_leaving (text : List QChar) (hr : m.result = none) (h : m.Seeks (t :: braces) level letter) :
    (if level = braces.length then (execAll text m (leaving t)).Runs braces
      else (execAll text m (leaving t)).Seeks braces level letter) ∧
      m.Kept (execAll text m (leaving t)) := by
  obtain ⟨mode, entered, ch, out, result⟩ := m
  obtain ⟨skipped, outer, rfl, hbraces, rfl, rfl⟩ := h
  obtain rfl : result = none := hr
  cases skipped with
  | nil =>
    obtain ⟨rfl, rfl⟩ : t = .bySwitch ∧ braces = outer := by simpa using hbraces
    simp [leaving, execAll, Runs, Kept]
  | cons b skipped =>
    obtain ⟨rfl, rfl⟩ : t = b ∧ braces = skipped ++ .bySwitch :: outer := by
      simpa using hbraces
    have hlevel : outer.length ≠ (skipped ++ .bySwitch :: outer).length := by simp; omega
    have hclose : execAll text
        ⟨.seek letter (t :: skipped).length, .bySwitch :: outer, ch, out, none⟩ (leaving t) =
          ⟨.seek letter skipped.length, .bySwitch :: outer, ch, out, none⟩ := by
      cases t <;> simp [leaving, execAll]
    simp only [hlevel, if_false, hclose]
    exact ⟨⟨skipped, outer, rfl, rfl, rfl, rfl⟩, rfl, rfl, rfl⟩

/-- A run that has followed the letters `p` of the key that is written: it is inside of all
braces, or it stands where the text departs from `p`. There none of the keys in `rest` goes
further with the text, or the case of the next letter of the text is sought. -/
inductive Follows (skip : Bool) (text : List QChar) (rest : List (List QChar))
    (p : List QChar) (braces : List UsedCheckType) (m : Machine) : Prop where
  | runs (h : m.Runs braces) (hlen : braces.length = p.length) (hp : p <+: letters skip text)
  | skips (h : m.Skips braces (agree p (letters skip text)))
      (hrest : ∀ k ∈ rest, agree k (letters skip text) ≤ agree p (letters skip text))
  | seeks (letter : QChar) (h : m.Seeks braces (agree p (letters skip text)) letter)
      (hletter : (letters skip text)[agree p (letters skip text)]? = some letter)
      (hch : m.ch = placeOf skip text (agree p (letters skip text)))

variable {skip : Bool} {rest : List (List QChar)} {p k : List QChar} {c : QChar}

theorem Skips.lt (h : m.Skips braces level) : level < braces.length := by
  obtain ⟨skipped, hne, rfl, -, rfl⟩ := h
  have := List.length_pos_of_ne_nil hne
  simp
  omega

theorem Seeks.lt (h : m.Seeks braces level letter) : level < braces.length := by
  obtain ⟨skipped, outer, hentered, rfl, -, rfl⟩ := h
  simp [hentered]
  omega

theorem follows_leaving (hlen : braces.length = p.length) (hr : m.result = none)
    (h : m.Follows skip text rest (p ++ [c]) (t :: braces)) :
    (execAll text m (leaving t)).Follows skip text rest p braces ∧
      m.Kept (execAll text m (leaving t)) := by
  have hmin := agree_of_prefix (List.prefix_append p [c]) (letters skip text)
  cases h with
  | runs h _ hp =>
    obtain ⟨hruns, hkept⟩ := runs_leaving text hr h
    exact ⟨.runs hruns hlen ((List.prefix_append p [c]).trans hp), hkept⟩
  | skips h hrest =>
    obtain ⟨hskips, hkept⟩ := skips_leaving text hr h
    refine ⟨?_, hkept⟩
    split at hskips
    · exact .runs hskips hlen (agree_eq_length_iff.mp (by omega))
    · have hlt := hskips.lt
      have hsame : agree p (letters skip text) = agree (p ++ [c]) (letters skip text) := by omega
      exact .skips (hsame ▸ hskips) (hsame ▸ hrest)
  | seeks letter h hletter hch =>
    obtain ⟨hseeks, hkept⟩ := seeks_leaving text hr h
    refine ⟨?_, hkept⟩
    split at hseeks
    · exact .runs hseeks hlen (agree_eq_length_iff.mp (by omega))
    · have hlt := hseeks.lt
      have hsame : agree p (letters skip text) = agree (p ++ [c]) (letters skip text) := by omega
      exact .seeks letter (hsame ▸ hseeks) (hsame ▸ hletter) (hsame ▸ hkept.1.trans hch)

/-- The case is left and its switch stays open for the case of another key. -/
theorem follows_break (hlen : braces.length = p.length) (hr : m.result = none)
    (hgone : ∀ k ∈ rest, ¬ p ++ [c] <+: k)
    (h : m.Follows skip text rest (p ++ [c]) (.bySwitch :: braces)) :
    (m.exec text .breakSwitch).Follows skip text rest p (.bySwitch :: braces) ∧
      m.Kept (m.exec text .breakSwitch) := by
  have hmin := agree_of_prefix (List.prefix_append p [c]) (letters skip text)
  obtain ⟨mode, entered, ch, out, result⟩ := m
  obtain rfl : result = none := hr
  cases h with
  | runs h _ hp =>
    obtain ⟨rfl, rfl⟩ := h
    have hp' : p <+: letters skip text := (List.prefix_append p [c]).trans hp
    have hsame := agree_eq_length_iff.mpr hp'
    refine ⟨.skips ⟨[.bySwitch], by simp, rfl, rfl, hlen.trans hsame.symm⟩ ?_, rfl, rfl, rfl⟩
    intro k hk
    by_contra hmore
    exact hgone k hk (prefix_of_le_agree hp (by simp; omega))
  | skips h hrest =>
    have hlt := h.lt
    have hsame : agree p (letters skip text) = agree (p ++ [c]) (letters skip text) := by
      simp at hlt
      omega
    obtain ⟨skipped, hne, hbraces, rfl, hlevel⟩ := h
    refine ⟨.skips ⟨skipped, hne, hbraces, rfl, hsame ▸ hlevel⟩ (hsame ▸ hrest), rfl, rfl, rfl⟩
  | seeks letter h hletter hch =>
    have hlt := h.lt
    have hsame : agree p (letters skip text) = agree (p ++ [c]) (letters skip text) := by
      simp at hlt
      omega
    obtain ⟨skipped, outer, hentered, hbraces, rfl, hlevel⟩ := h
    exact ⟨.seeks letter ⟨skipped, outer, hentered, hbraces, rfl, hsame ▸ hlevel⟩
      (hsame ▸ hletter) (hsame ▸ hch), rfl, rfl, rfl⟩

/-- The run has passed as many letters as the machine has read. -/
def Fresh (skip : Bool) (text p : List QChar) (m : Machine) : Prop :=
  m.mode = .run → m.ch = placeOf skip text p.length

theorem follows_openSwitch (hr : m.result = none) (hfresh : m.Fresh skip text p)
    (h : m.Follows skip text rest p braces) :
    (m.exec text .openSwitch).Follows skip text rest p (.bySwitch :: braces) ∧
      m.Kept (m.exec text .openSwitch) := by
  obtain ⟨mode, entered, ch, out, result⟩ := m
  obtain rfl : result = none := hr
  cases h with
  | runs h hlen hp =>
    obtain ⟨rfl, rfl⟩ := h
    have hsame := agree_eq_length_iff.mpr hp
    obtain rfl : ch = placeOf skip text p.length := hfresh rfl
    have hletter := letters_get skip text p.length
    cases hc : text[placeOf skip text p.length]? with
    | some letter =>
      have hexec : exec text ⟨.run, entered, placeOf skip text p.length, out, none⟩ .openSwitch =
          ⟨.seek letter 0, .bySwitch :: entered, placeOf skip text p.length, out, none⟩ := by
        simp [runLine, hc]
      rw [hexec]
      refine ⟨.seeks letter ⟨[], entered, rfl, rfl, rfl, ?_⟩ ?_ ?_, rfl, rfl, rfl⟩
      · exact hlen.trans hsame.symm
      · rw [hsame, hletter, hc]
      · rw [hsame]
    | none =>
      have hexec : exec text ⟨.run, entered, placeOf skip text p.length, out, none⟩ .openSwitch =
          ⟨.skip 1, entered, placeOf skip text p.length, out, none⟩ := by
        simp [runLine, hc]
      rw [hexec]
      refine ⟨.skips ⟨[.bySwitch], by simp, rfl, rfl, hlen.trans hsame.symm⟩ ?_, rfl, rfl, rfl⟩
      intro k _
      have hend : (letters skip text).length ≤ p.length := by
        rw [← List.getElem?_eq_none_iff, hletter, hc]
      exact (agree_le_length_right _ _).trans (hsame ▸ hend)
  | skips h hrest =>
    obtain ⟨skipped, hne, hbraces, rfl, hlevel⟩ := h
    exact ⟨.skips ⟨.bySwitch :: skipped, by simp, by rw [hbraces]; rfl, rfl, hlevel⟩ hrest,
      rfl, rfl, rfl⟩
  | seeks letter h hletter hch =>
    obtain ⟨skipped, outer, hentered, hbraces, rfl, hlevel⟩ := h
    exact ⟨.seeks letter ⟨.bySwitch :: skipped, outer, hentered, by rw [hbraces]; rfl, rfl,
      hlevel⟩ hletter hch, rfl, rfl, rfl⟩

/-- The machine has read as far as the text goes with `p` or went before, `deep` letters. -/
def Reads (skip : Bool) (text : List QChar) (deep : Nat) (p : List QChar) (m : Machine) : Prop :=
  m.ch = placeOf skip text (max deep (agree p (letters skip text)))

/-- What the lines of a check leave behind: the letter is followed, too. -/
structure Checked (skip : Bool) (text : List QChar) (rest : List (List QChar))
    (p : List QChar) (braces : List UsedCheckType) (m m' : Machine) : Prop where
  follows : m'.Follows skip text rest p braces
  fresh : m'.Fresh skip text p
  reads : ∀ deep, m.Reads skip text deep p.dropLast → m'.Reads skip text deep p
  outLength : m'.outLength = m.outLength
  result : m'.result = none

theorem checked_enter (hp : p <+: letters skip text)
    (hc : (letters skip text)[p.length]? = some c) (hm : m.ch = placeOf skip text p.length)
    (hr : m.result = none) (hlen : braces.length = p.length + 1) :
    Checked skip text rest (p ++ [c]) braces m
      { m with mode := .run, entered := braces, ch := nextPlace skip text m.ch } := by
  have hsame := agree_eq_length_iff.mpr hp
  have hnext : agree (p ++ [c]) (letters skip text) = p.length + 1 := by simp [agree_snoc, hp, hc]
  have hch : nextPlace skip text m.ch = placeOf skip text (p.length + 1) := by
    rw [hm, placeOf_succ]
  constructor
  · exact .runs ⟨rfl, rfl⟩ (by simpa using hlen) (agree_eq_length_iff.mp (by simpa using hnext))
  · intro _
    simpa using hch
  · intro deep hreads
    have hdeep : max deep p.length = p.length := by
      apply (placeOf_strictMono skip text).injective
      rw [← hm, hreads]
      simp [hsame]
    simp only [Reads, hch, hnext]
    congr 1
    omega
  · rfl
  · exact hr

theorem checked_pass {m' : Machine} (hsame : agree (p ++ [c]) (letters skip text) =
      agree p (letters skip text))
    (h : m'.Follows skip text rest (p ++ [c]) braces) (hm : m.Kept m') (hr : m.result = none) :
    Checked skip text rest (p ++ [c]) braces m m' := by
  have hlt : agree p (letters skip text) < (p ++ [c]).length := by
    have := agree_le_length p (letters skip text)
    simp
    omega
  constructor
  · exact h
  · intro hmode
    cases h with
    | runs _ _ hp =>
      have := agree_eq_length_iff.mpr hp
      omega
    | skips h _ =>
      obtain ⟨skipped, -, -, hskip, -⟩ := h
      simp [hskip] at hmode
    | seeks letter h _ _ =>
      obtain ⟨skipped, outer, -, -, hseek, -⟩ := h
      simp [hseek] at hmode
  · intro deep hreads
    rw [List.dropLast_concat] at hreads
    simp only [Reads, hm.1, hsame]
    exact hreads
  · exact hm.2.1
  · exact hm.2.2.trans hr

theorem checked_caseOf (hlen : braces.length = p.length) (hr : m.result = none)
    (hk : k ∈ rest) (hpk : p ++ [c] <+: k)
    (h : m.Follows skip text rest p (.bySwitch :: braces)) :
    Checked skip text rest (p ++ [c]) (.bySwitch :: braces) m
      (execAll text m [.caseOf c, .next skip]) := by
  have hmono := agree_mono (List.prefix_append p [c]) (letters skip text)
  obtain ⟨mode, entered, ch, out, result⟩ := m
  obtain rfl : result = none := hr
  cases h with
  | runs _ hlen' _ => simp [hlen] at hlen'
  | skips h hrest =>
    have hsame : agree (p ++ [c]) (letters skip text) = agree p (letters skip text) :=
      le_antisymm ((agree_mono hpk _).trans (hrest k hk)) hmono
    obtain ⟨skipped, hne, hbraces, rfl, hlevel⟩ := h
    apply checked_pass hsame _ _ rfl
    · exact .skips ⟨skipped, hne, hbraces, rfl, hsame ▸ hlevel⟩ (hsame ▸ hrest)
    · exact ⟨rfl, rfl, rfl⟩
  | seeks letter h hletter hch =>
    have hlt := h.lt
    obtain ⟨skipped, outer, rfl, hbraces, rfl, hlevel⟩ := h
    by_cases hin : skipped = [] ∧ c = letter
    · obtain ⟨rfl, rfl⟩ := hin
      obtain rfl : braces = outer := by simpa using hbraces
      have hp : p <+: letters skip text := agree_eq_length_iff.mp (hlevel.symm.trans hlen)
      have hsame := agree_eq_length_iff.mpr hp
      have henter : Checked skip text rest (p ++ [c]) (.bySwitch :: braces)
          ⟨.seek c 0, .bySwitch :: braces, ch, out, none⟩ _ :=
        checked_enter hp (hsame ▸ hletter) (hsame ▸ hch) rfl (by simp [hlen])
      have hexec : execAll text ⟨.seek c 0, .bySwitch :: braces, ch, out, none⟩
          [.caseOf c, .next skip] =
            ⟨.run, .bySwitch :: braces, nextPlace skip text ch, out, none⟩ := by
        simp [execAll]
      simpa [hexec] using henter
    · have hpass : execAll text ⟨.seek letter skipped.length, .bySwitch :: outer, ch, out, none⟩
          [.caseOf c, .next skip] =
            ⟨.seek letter skipped.length, .bySwitch :: outer, ch, out, none⟩ := by
        simp [execAll, hin]
      rw [hpass]
      have hsame : agree (p ++ [c]) (letters skip text) = agree p (letters skip text) := by
        rw [agree_snoc, if_neg]
        rintro ⟨hp, hc⟩
        rw [← agree_eq_length_iff.mpr hp, hletter] at hc
        have hlength := congrArg List.length hbraces
        have := agree_eq_length_iff.mpr hp
        simp [hlen] at hlength
        exact hin ⟨List.length_eq_zero_iff.mp (by omega), (Option.some.inj hc).symm⟩
      apply checked_pass hsame _ _ rfl
      · exact .seeks letter ⟨skipped, outer, rfl, hbraces, rfl, hsame ▸ hlevel⟩ (hsame ▸ hletter)
          (hsame ▸ hch)
      · exact ⟨rfl, rfl, rfl⟩

theorem checked_openSwitch (hlen : braces.length = p.length) (hr : m.result = none)
    (hfresh : m.Fresh skip text p) (hk : k ∈ rest) (hpk : p ++ [c] <+: k)
    (h : m.Follows skip text rest p braces) :
    Checked skip text rest (p ++ [c]) (.bySwitch :: braces) m
      (execAll text m [.openSwitch, .caseOf c, .next skip]) := by
  obtain ⟨hopen, hch, hout, hres⟩ := follows_openSwitch hr hfresh h
  have hcase := checked_caseOf hlen (hres.trans hr) hk hpk hopen
  constructor
  · exact hcase.follows
  · exact hcase.fresh
  · intro deep hreads
    exact hcase.reads deep (hch.trans hreads)
  · exact hcase.outLength.trans hout
  · exact hcase.result

/-- With an `if` none of the keys in `rest` has another letter in this place. -/
theorem checked_openIf (hlen : braces.length = p.length) (hr : m.result = none)
    (hfresh : m.Fresh skip text p) (hif : ∀ k ∈ rest, p <+: k → k = p ∨ p ++ [c] <+: k)
    (h : m.Follows skip text rest p braces) :
    Checked skip text rest (p ++ [c]) (.byIf :: braces) m
      (execAll text m [.openIf c, .next skip]) := by
  have hmin := agree_of_prefix (List.prefix_append p [c]) (letters skip text)
  obtain ⟨mode, entered, ch, out, result⟩ := m
  obtain rfl : result = none := hr
  cases h with
  | runs h _ hp =>
    obtain ⟨rfl, rfl⟩ := h
    have hsame := agree_eq_length_iff.mpr hp
    have hletter := letters_get skip text p.length
    obtain rfl : ch = placeOf skip text p.length := hfresh rfl
    by_cases hc : text[placeOf skip text p.length]? = some c
    · have henter : Checked skip text rest (p ++ [c]) (.byIf :: entered)
          ⟨.run, entered, placeOf skip text p.length, out, none⟩ _ :=
        checked_enter hp (hletter.trans hc) rfl rfl (by simp [hlen])
      simpa [execAll, runLine, hc] using henter
    · have hnot : agree (p ++ [c]) (letters skip text) = agree p (letters skip text) := by
        rw [agree_snoc, if_neg]
        simp [hletter, hc]
      have hpass : execAll text ⟨.run, entered, placeOf skip text p.length, out, none⟩
          [.openIf c, .next skip] =
            ⟨.skip 1, entered, placeOf skip text p.length, out, none⟩ := by
        simp [execAll, runLine, hc]
        rfl
      rw [hpass]
      refine checked_pass hnot (.skips ?_ ?_) ?_ rfl
      · exact ⟨[.byIf], by simp, rfl, rfl, by simp [hnot, hsame, hlen]⟩
      rotate_left
      · exact ⟨rfl, rfl, rfl⟩
      intro k hk
      by_contra hmore
      have hpk : p <+: k := prefix_of_le_agree hp (by omega)
      rcases hif k hk hpk with rfl | hpck
      · omega
      · have := agree_of_prefix hpck (letters skip text)
        simp at this
        omega
  | skips h hrest =>
    have hlt := h.lt
    have hnot : agree (p ++ [c]) (letters skip text) = agree p (letters skip text) := by
      rw [agree_snoc, if_neg]
      rintro ⟨hp, -⟩
      have := agree_eq_length_iff.mpr hp
      omega
    obtain ⟨skipped, hne, hbraces, rfl, hlevel⟩ := h
    apply checked_pass hnot _ _ rfl
    · exact .skips ⟨.byIf :: skipped, by simp, by rw [hbraces]; rfl, rfl, hnot ▸ hlevel⟩
        (hnot ▸ hrest)
    · exact ⟨rfl, rfl, rfl⟩
  | seeks letter h hletter hch =>
    have hlt := h.lt
    have hnot : agree (p ++ [c]) (letters skip text) = agree p (letters skip text) := by
      rw [agree_snoc, if_neg]
      rintro ⟨hp, -⟩
      have := agree_eq_length_iff.mpr hp
      omega
    obtain ⟨skipped, outer, hentered, hbraces, rfl, hlevel⟩ := h
    apply checked_pass hnot _ _ rfl
    · exact .seeks letter ⟨.byIf :: skipped, outer, hentered, by rw [hbraces]; rfl, rfl,
        hnot ▸ hlevel⟩ (hnot ▸ hletter) (hnot ▸ hch)
    · exact ⟨rfl, rfl, rfl⟩

end Lines

end Machine

end TelegramClient.Codegen
