import TelegramClient.Support.TemplateUpdates

/-! What is read back after an update of a template file. -/

namespace TelegramClient.Support

open Text Std

variable {qt : Qt} {keys : Keys} {s s' : LineState} {r r' : Reading Questions} {w : Writing}
  {k : Keying} {url line : QString} {n : QString}

/-- All lines of the blob. -/
theorem Related.run (hkeys : KeysFine qt keys) {ls : List QString}
    (hlines : ∀ line ∈ ls, IsLine qt line) (h : Related qt keys url s r w k s' r') :
    ∃ written, (∀ line ∈ written, IsLine qt line) ∧
      (ls.foldl (writeStep qt keys) (s, w)).2.out = w.out ++ bytesOf written ∧
      Related qt keys url (ls.foldl (readStep qt) (s, r)).1 (ls.foldl (readStep qt) (s, r)).2
        (ls.foldl (writeStep qt keys) (s, w)).2 (ls.foldl (keyStep qt) (s, k)).2
        (written.foldl (readStep qt) (s', r')).1 (written.foldl (readStep qt) (s', r')).2 := by
  induction ls generalizing s r w k s' r' with
  | nil => exact ⟨[], by simp, by simp [bytesOf], h⟩
  | cons line ls ih =>
    obtain ⟨hline, hrest⟩ := List.forall_mem_cons.mp hlines
    obtain ⟨hws, hks, written₁, hfine₁, hout₁, h₁⟩ := h.step hkeys hline
    obtain ⟨written₂, hfine₂, hout₂, h₂⟩ := ih hrest h₁
    have hw : writeStep qt keys (s, w) line =
        ((readStep qt (s, r) line).1, (writeStep qt keys (s, w) line).2) := Prod.ext hws rfl
    have hk : keyStep qt (s, k) line =
        ((readStep qt (s, r) line).1, (keyStep qt (s, k) line).2) := Prod.ext hks rfl
    refine ⟨written₁ ++ written₂, ?_, ?_, ?_⟩
    · intro l hl
      exact (List.mem_append.mp hl).elim (hfine₁ l) (hfine₂ l)
    · rw [List.foldl_cons, hw, hout₂, hout₁, bytesOf_append, List.append_assoc]
    · rw [List.foldl_cons, List.foldl_cons, List.foldl_cons, List.foldl_append, hw, hk]
      exact h₂

/-! ### The end of the file -/

theorem chop_append (value : QString) : chop (value ++ [10]) = chop value := by
  rw [chop, List.rdropWhile_concat_pos _ _ _ (by simp)]
  rfl

/-- The line behind the last end of line. -/
theorem call_line_nil (r : Reading Questions) (state : ReadState) :
    (r.line qt state [] false).url = r.url ∧
      ((r.line qt state [] false).call (addQuestion qt)).result =
        (r.call (addQuestion qt)).result := by
  cases state with
  | none => exact ⟨rfl, rfl⟩
  | keys => simp [Reading.line]
  | url =>
    by_cases hurl : r.url = []
    · simp [Reading.line, hurl, Reading.call]
    · simp [Reading.line, hurl]
  | question =>
    by_cases hquestion : r.question.question = []
    · simp [Reading.line, hquestion, Reading.call]
    · simp [Reading.line, hquestion]
  | value =>
    refine ⟨rfl, ?_⟩
    by_cases hvalue : r.question.value = []
    · simp [Reading.line, hvalue, Reading.call]
    · simp [Reading.line, hvalue, Reading.call, chop_append]

theorem addQuestion_of_nil {q : TemplatesQuestion} (h : q.question = []) (questions : Questions) :
    addQuestion qt questions q = questions := by
  rw [addQuestion, h]
  rfl

theorem Related.results (h : Related qt keys url s r w k s' r') :
    SameResults keys (r.call (addQuestion qt)).result (k.call qt).result
      (r'.call (addQuestion qt)).result ∧ r'.url = url := by
  rcases h.cases with htogether | hbehind
  · exact ⟨htogether.same.results htogether.results, htogether.url⟩
  · have hsame := hbehind.left.same
    have hquestion : r.question.question = [] := hsame.question.symm
    have hkeying : k.question = [] := hsame.keying.trans hquestion
    have hread : (r.call (addQuestion qt)).result = r.result :=
      addQuestion_of_nil (by exact hquestion) r.result
    have hkeyed : (k.call qt).result = k.result := by
      rw [Keying.call, hkeying]
      rfl
    rw [hread, hkeyed]
    exact ⟨hbehind.left.results, hbehind.left.url⟩

/-! ### The whole file -/

theorem isLine_head (hqt : qt.IsUnicode) : IsLine qt (qstr "{URL}") := by
  refine ⟨⟨"{URL}".toList, by decide, by decide⟩, by decide, ?_⟩
  have hopen := hqt.ascii 0x7B (by decide)
  have hclose := hqt.ascii 0x7D (by decide)
  have hhead : qstr "{URL}" = [0x7B, 0x55, 0x52, 0x4C] ++ [0x7D] := by decide
  rw [hhead, Qt.trimmed, List.cons_append, List.dropWhile_cons_of_neg (by rw [hopen]; decide),
    ← List.cons_append, List.rdropWhile_concat_neg _ _ _ (by rw [hclose]; decide)]

/-- The lines in front of the content. -/
theorem readStep_head (htoken : token? url = none) :
    [qstr "{URL}", url, []].foldl (readStep qt) ({}, { result := (∅ : Questions) }) =
      ({ state := .url }, { url := url, result := ∅ }) := by
  have hhead : token? (qstr "{URL}") = some (qstr "URL") := by decide
  have henter : LineState.enter {} (qstr "URL") = { state := .url } := by decide
  have hsee : ∀ line, LineState.see { state := .url } line = { state := .url } := by
    intro line
    rw [LineState.see]
    split <;> rfl
  rw [List.foldl_cons, List.foldl_cons, List.foldl_cons, List.foldl_nil, readStep_token hhead,
    henter, readStep_line htoken, hsee, readStep_line rfl, hsee]
  by_cases hurl : url = [] <;> simp [Reading.change, Reading.line, hurl]

/-- Nothing is read of the content and the lines in front of it were. -/
theorem Related.start (w : Writing) (hquestion : w.question = []) (hnormalized : w.normalized = []) :
    Related qt keys url {} { result := ∅ } w {} { state := .url } { url := url, result := ∅ } where
  fine := by simp [LineState.Fine]
  fine' := by simp [LineState.Fine]
  cases := by
    refine .inl ⟨⟨⟨rfl, hquestion, rfl, ?_, rfl, rfl, by simp⟩, ?_, rfl, rfl, rfl⟩, by simp [StatesAgree]⟩
    · rw [hnormalized, normalizeQuestion_nil]
    · intro n
      rw [ExtTreeMap.getElem?_empty, ExtTreeMap.getElem?_empty]
      exact ⟨rfl, rfl⟩

/-- What is read of a written file: the same questions, some of them with other keys. -/
theorem readFromBlob_write (hqt : qt.IsUnicode) (delta : Delta) (hkeys : KeysFine qt delta.keys)
    (hurl : IsLine qt url) (htoken : token? url = none) {blob : List UInt8}
    (hlines : ∀ line ∈ lines qt blob, IsLine qt line) :
    (readFromBlob qt (writeWithOwnUrlAndKeys qt blob url delta)).url = url ∧
      SameResults delta.keys (readFromBlob qt blob).questions (keysBehindQuestion qt blob)
        (readFromBlob qt (writeWithOwnUrlAndKeys qt blob url delta)).questions := by
  have hstart := @Related.start qt delta.keys url
    { out := bytesOf [qstr "{URL}", url, []] } rfl rfl
  obtain ⟨written, hwritten, hout, hrelated⟩ := hstart.run hkeys hlines
  have hhead : bytesOf [qstr "{URL}", url, []] =
      Utf16.toUtf8 (qstr "{URL}") ++ [10] ++ Utf16.toUtf8 url ++ [10, 10] := by
    simp [bytesOf, Utf16.toUtf8]
  have hfile : writeWithOwnUrlAndKeys qt blob url delta =
      bytesOf ([qstr "{URL}", url, []] ++ written) := by
    rw [bytesOf_append, ← hout, hhead]
    rfl
  have hread : lines qt (writeWithOwnUrlAndKeys qt blob url delta) =
      [qstr "{URL}", url, []] ++ written ++ [[]] := by
    rw [hfile, lines_bytesOf]
    intro line hline
    rw [List.mem_append] at hline
    rcases hline with hline | hline
    · simp only [List.mem_cons, List.not_mem_nil, or_false] at hline
      rcases hline with rfl | rfl | rfl
      · exact isLine_head hqt
      · exact hurl
      · exact isLine_nil
    · exact hwritten line hline
  obtain ⟨hsame, hsameUrl⟩ := hrelated.results
  have hrun : readFromBlob qt (writeWithOwnUrlAndKeys qt blob url delta) =
      let p := readStep qt (written.foldl (readStep qt) ({ state := .url }, { url := url, result := ∅ })) []
      { url := (p.2.call (addQuestion qt)).url, questions := (p.2.call (addQuestion qt)).result } := by
    rw [readFromBlob, readByLineGetUrl, readByLine, readLines, hread]
    have hfold := @readStep_head qt url htoken
    rw [List.foldl_append, List.foldl_append]
    rw [readStep] at hfold
    rw [hfold]
    rfl
  rw [hrun, readStep_line rfl]
  obtain ⟨hlineUrl, hlineResult⟩ := @call_line_nil qt
    (written.foldl (readStep qt) ({ state := .url }, { url := url, result := ∅ })).2
    (written.foldl (readStep qt) ({ state := .url }, { url := url, result := ∅ })).1.state
  simp only [LineState.see, if_true]
  refine ⟨hlineUrl.trans hsameUrl, ?_⟩
  rw [hlineResult]
  exact hsame

/-! ### The keys of the user -/

/-- The keys of `was` for every question of the list. -/
theorem foldl_addNow_keys (was : Questions) (ps : List (QString × TemplatesQuestion)) (d : Delta) :
    (ps.foldl (Delta.addNow was) d).keys[n]? =
      (d.keys[n]?).or (if n ∈ ps.map Prod.fst then was[n]?.map (·.originalKeys) else none) := by
  induction ps generalizing d with
  | nil => simp
  | cons p ps ih =>
    have hskip : n ≠ p.1 → (n ∈ (p :: ps).map Prod.fst ↔ n ∈ ps.map Prod.fst) := by
      intro hn
      rw [List.map_cons, List.mem_cons, or_iff_right hn]
    rw [List.foldl_cons, ih, Delta.addNow]
    cases hp : was[p.1]? with
    | none =>
      by_cases hn : n = p.1
      · subst hn
        simp [hp]
      · simp only [hskip hn]
    | some old =>
      simp only [ExtTreeMap.getElem?_insertIfNew]
      by_cases hn : p.1 = n
      · subst hn
        simp only [compare_self, true_and, List.map_cons, List.mem_cons, true_or, if_true, hp, Option.map_some,
          ExtTreeMap.mem_iff_isSome_getElem?]
        cases hd : d.keys[p.1]? <;> simp
      · have hne : compare p.1 n ≠ .eq := fun heq => hn (LawfulEqCmp.eq_of_compare heq)
        simp only [hne, hskip (Ne.symm hn), false_and, if_false]

theorem computeDelta_keys (was now : TemplatesFile) (n : QString) :
    (computeDelta was now).keys[n]? =
      if n ∈ now.questions then was.questions[n]?.map (·.originalKeys) else none := by
  have hmem : n ∈ now.questions.toList.map Prod.fst ↔ n ∈ now.questions := by
    rw [ExtTreeMap.map_fst_toList_eq_keys, ExtTreeMap.mem_keys]
  rw [computeDelta, foldl_addNow_keys, ExtTreeMap.getElem?_empty, Option.none_or]
  simp only [hmem]

/-! ### What is read can be written -/

/-- A line with a key. -/
structure IsKey (qt : Qt) (key : QString) : Prop where
  line : IsLine qt key
  token : token? key = none
  notEmpty : key ≠ []

/-- The address and the keys were lines. -/
structure Reading.Fine (qt : Qt) (r : Reading Questions) : Prop where
  url : IsLine qt r.url ∧ token? r.url = none
  keys : ∀ key ∈ r.question.originalKeys, IsKey qt key
  result : ∀ (n : QString) (q : TemplatesQuestion), r.result[n]? = some q →
    ∀ key ∈ q.originalKeys, IsKey qt key

theorem Reading.Fine.call (h : r.Fine qt) : (r.call (addQuestion qt)).Fine qt where
  url := h.url
  keys := by simp [Reading.call]
  result := by
    intro n q hq
    rw [Reading.call, addQuestion] at hq
    split at hq
    · exact h.result n q hq
    · simp only [ExtTreeMap.getElem?_insertIfNew] at hq
      split at hq
      · cases hq
        exact h.keys
      · exact h.result n q hq

theorem Reading.Fine.change (h : r.Fine qt) (was now : ReadState) :
    (r.change (addQuestion qt) was now).Fine qt := by
  rw [Reading.change]
  split
  · exact h.call
  · exact h

theorem Reading.Fine.see (h : r.Fine qt) (hline : IsLine qt line) (htoken : token? line = none)
    (state : ReadState) : (r.line qt state line false).Fine qt := by
  cases state with
  | none => exact h
  | value => exact ⟨h.url, h.keys, h.result⟩
  | question =>
    simp only [Reading.line, Bool.false_eq_true, if_false]
    split
    · exact ⟨h.url, h.keys, h.result⟩
    · exact h
  | url =>
    simp only [Reading.line, Bool.false_eq_true, if_false]
    split
    · exact ⟨⟨hline, htoken⟩, h.keys, h.result⟩
    · exact h
  | keys =>
    simp only [Reading.line, Bool.false_eq_true, if_false]
    split
    · exact h
    · next hne =>
      refine ⟨h.url, fun key hkey => ?_, h.result⟩
      rcases List.mem_append.mp hkey with hkey | hkey
      · exact h.keys key hkey
      · rw [List.mem_singleton.mp hkey]
        exact ⟨hline, htoken, hne⟩

theorem Reading.Fine.run {ls : List QString} (hlines : ∀ line ∈ ls, IsLine qt line)
    (h : r.Fine qt) : (ls.foldl (readStep qt) (s, r)).2.Fine qt := by
  induction ls generalizing s r with
  | nil => exact h
  | cons line ls ih =>
    obtain ⟨hline, hrest⟩ := List.forall_mem_cons.mp hlines
    rw [List.foldl_cons]
    cases htoken : token? line with
    | some token =>
      rw [readStep_token htoken]
      exact ih hrest (h.change _ _)
    | none =>
      rw [readStep_line htoken]
      exact ih hrest (h.see hline htoken _)

/-- The reading of a whole file. -/
theorem fine_readFromBlob {blob : List UInt8} (hlines : ∀ line ∈ lines qt blob, IsLine qt line) :
    (IsLine qt (readFromBlob qt blob).url ∧ token? (readFromBlob qt blob).url = none) ∧
      ∀ (n : QString) (q : TemplatesQuestion), (readFromBlob qt blob).questions[n]? = some q →
        ∀ key ∈ q.originalKeys, IsKey qt key := by
  have hstart : Reading.Fine qt ({ result := ∅ } : Reading Questions) :=
    ⟨⟨isLine_nil, rfl⟩, by simp, by simp⟩
  have hend := (hstart.run (s := {}) hlines).call
  exact ⟨hend.url, hend.result⟩

/-! ### The update of a file -/

/-- The written file has the address, the questions and values of the content, and the keys of the
user. -/
structure KeepsKeys (qt : Qt) (file : TemplatesFile) (blob back : List UInt8) : Prop where
  url : (readFromBlob qt back).url = file.url
  questions : ∀ n : QString,
    (readFromBlob qt back).questions[n]?.map (fun q => (q.question, q.value)) =
      (readFromBlob qt blob).questions[n]?.map fun q => (q.question, q.value)
  keys : ∀ (n : QString) (q own : TemplatesQuestion), (readFromBlob qt back).questions[n]? = some q →
    file.questions[n]? = some own → q.originalKeys = own.originalKeys

/-- What `UpdateFile` writes. -/
def updated (qt : Qt) (file : TemplatesFile) (blob : List UInt8) : List UInt8 :=
  writeWithOwnUrlAndKeys qt blob file.url (computeDelta file (readFromBlob qt blob))

/-- No line of the file begins with a byte order mark, when one before it was skipped. -/
def Unmarked (qt : Qt) (blob : List UInt8) : Prop :=
  ∀ line ∈ lines qt blob, line.head? ≠ some 0xFEFF

instance (qt : Qt) (blob : List UInt8) : Decidable (Unmarked qt blob) := by
  unfold Unmarked
  infer_instance

theorem readFromBlob_updated (hqt : qt.IsUnicode) {old blob : List UInt8} (hold : Unmarked qt old)
    (hblob : Unmarked qt blob) :
    (readFromBlob qt (updated qt (readFromBlob qt old) blob)).url = (readFromBlob qt old).url ∧
      SameResults (computeDelta (readFromBlob qt old) (readFromBlob qt blob)).keys
        (readFromBlob qt blob).questions (keysBehindQuestion qt blob)
        (readFromBlob qt (updated qt (readFromBlob qt old) blob)).questions := by
  obtain ⟨⟨hurl, htoken⟩, hkeys⟩ := fine_readFromBlob fun line hline =>
    isLine_of_mem hqt hline (hold line hline)
  refine readFromBlob_write hqt _ ?_ hurl htoken fun line hline =>
    isLine_of_mem hqt hline (hblob line hline)
  intro n own hown key hkey
  rw [computeDelta_keys] at hown
  split at hown
  · obtain ⟨q, hq, rfl⟩ := Option.map_eq_some_iff.mp hown
    have hfine := hkeys n q hq key hkey
    exact ⟨hfine.line, hfine.token, hfine.notEmpty⟩
  · cases hown

/-- Latin letters and digits. -/
def asciiQt : Qt where
  platform :=
    { isSpace := fun ch => ch == 0x20 || 9 ≤ ch && ch ≤ 13
      isMarkNonSpacing := fun _ => false
      isMac := false
      isElCapitan := false
      isSnowLeopard := false }
  isLetterOrNumber ch :=
    0x30 ≤ ch && ch ≤ 0x39 || 0x41 ≤ ch && ch ≤ 0x5A || 0x61 ≤ ch && ch ≤ 0x7A
  toLowerChar ch := if 0x41 ≤ ch && ch ≤ 0x5A then ch + 32 else ch
  toLower s := s.map fun ch => if 0x41 ≤ ch && ch ≤ 0x5A then ch + 32 else ch

theorem asciiQt_isUnicode : asciiQt.IsUnicode where
  ascii _ _ := rfl
  surrogate ch hch := by
    simp only [Utf16.isHigh, Utf16.isLow, Bool.and_eq_true, decide_eq_true_eq] at hch
    simp only [asciiQt, Bool.or_eq_false_iff, beq_eq_false_iff_ne, Bool.and_eq_false_iff,
      decide_eq_false_iff_not, ne_eq, ← UInt16.toNat_inj, UInt16.le_iff_toNat_le]
    simp only [UInt16.reduceToNat]
    omega

def fileOf (lines : List String) : List UInt8 := bytesOf (lines.map qstr)

/-- The user's file. -/
def ownFile : List UInt8 := fileOf ["{QUESTION}", "q", "{KEYS}", "k", "{VALUE}", "v"]

end TelegramClient.Support
