import TelegramClient.Support.TemplateLines

/-! An update of a template file: the questions and values of the new content, with the keys that
the user had. -/

namespace TelegramClient.Support

open Text Std

/-! ## Keys behind their question -/

/-- The question that the lines belong to, and whether a list of keys began behind it. -/
structure Keying where
  question : QString := []
  keyed : Bool := false
  result : ExtTreeMap QString Bool compare := ∅

variable (qt : Qt)

def Keying.call (k : Keying) : Keying where
  result :=
    let normalized := normalizeQuestion qt k.question
    if normalized = [] then k.result else k.result.insertIfNew normalized k.keyed

def Keying.change (k : Keying) (was _now : ReadState) : Keying :=
  if was = .value then k.call qt else k

def Keying.line (k : Keying) (state : ReadState) (line : QString) (stateChangeLine : Bool) : Keying :=
  match state with
  | .keys =>
    if stateChangeLine ∧ normalizeQuestion qt k.question ≠ [] then { k with keyed := true } else k
  | .question => if !stateChangeLine ∧ k.question = [] then { k with question := line } else k
  | _ => k

/-- For every question of a file, whether a list of keys begins between it and its value. -/
def keysBehindQuestion (blob : List UInt8) : ExtTreeMap QString Bool compare :=
  ((readByLine qt (Keying.change qt) (Keying.line qt) blob {}).call qt).result

/-! ## One step of the reader, the writer and the reader of what is written -/

abbrev Keys := ExtTreeMap QString (List QString) compare

def readStep : LineState × Reading Questions → QString → LineState × Reading Questions :=
  readLine (Reading.change (addQuestion qt)) (Reading.line qt)

def writeStep (keys : Keys) : LineState × Writing → QString → LineState × Writing :=
  readLine Writing.change (Writing.line qt keys)

def keyStep : LineState × Keying → QString → LineState × Keying :=
  readLine (Keying.change qt) (Keying.line qt)

/-- The keys that are written instead of those of the blob. -/
def replaced (keys : Keys) (k : Keying) : Option (List QString) :=
  if k.keyed then keys[normalizeQuestion qt k.question]? else none

variable {qt} {keys : Keys} {s s' : LineState} {r r' : Reading Questions} {w : Writing} {k : Keying}
  {url line token : QString}

/-- The questions that are read so far are the same, but for their keys. -/
structure SameQuestion (qt : Qt) (keys : Keys) (r : Reading Questions) (w : Writing) (k : Keying)
    (r' : Reading Questions) : Prop where
  question : r'.question.question = r.question.question
  written : w.question = r.question.question
  keying : k.question = r.question.question
  normalized : w.normalized = normalizeQuestion qt r.question.question
  value : r'.question.value = r.question.value
  keys : r'.question.originalKeys = (replaced qt keys k).getD r.question.originalKeys
  known : k.keyed → normalizeQuestion qt r.question.question ≠ []

/-- The same questions with other keys. -/
def SameResults (keys : Keys) (questions : Questions) (keyed : ExtTreeMap QString Bool compare)
    (questions' : Questions) : Prop :=
  ∀ n : QString,
    match questions[n]? with
    | none => keyed[n]? = none ∧ questions'[n]? = none
    | some q => ∃ b q', keyed[n]? = some b ∧ questions'[n]? = some q' ∧ q'.question = q.question ∧
        q'.value = q.value ∧ q'.originalKeys = (if b then keys[n]? else none).getD q.originalKeys

/-- Between two sections: nothing is said of the states. -/
structure Left (qt : Qt) (keys : Keys) (url : QString) (s : LineState) (r : Reading Questions)
    (w : Writing) (k : Keying) (s' : LineState) (r' : Reading Questions) : Prop where
  same : SameQuestion qt keys r w k r'
  results : SameResults keys r.result k.result r'.result
  url : r'.url = url
  hadKeys : s.hadKeys = decide (r.question.originalKeys ≠ [])
  hadKeys' : s'.hadKeys = decide (r'.question.originalKeys ≠ [])

/-- What the states say of each other. -/
def StatesAgree (qt : Qt) (keys : Keys) (s : LineState) (w : Writing) (k : Keying) (s' : LineState) :
    Prop :=
  match s.state with
  | .none | .url => s'.state ≠ .value
  | .question => s'.state = .question
  | .value => s'.state = .value
  | .keys =>
    if w.ownKeysWritten then (replaced qt keys k).isSome ∧ s'.state ≠ .value
    else replaced qt keys k = none ∧ s'.state = .keys

/-- A value is behind what is written. The reader of what is written is in it still. -/
structure Behind (qt : Qt) (keys : Keys) (url : QString) (s : LineState) (r : Reading Questions)
    (w : Writing) (k : Keying) (s' : LineState) (r' : Reading Questions) : Prop where
  state : s.state = .none ∨ s.state = .url
  state' : s'.state = .value
  left : Left qt keys url s r w k s'.leave (r'.call (addQuestion qt))

structure Together (qt : Qt) (keys : Keys) (url : QString) (s : LineState) (r : Reading Questions)
    (w : Writing) (k : Keying) (s' : LineState) (r' : Reading Questions) : Prop extends
    Left qt keys url s r w k s' r' where
  states : StatesAgree qt keys s w k s'

/-- A value is seen in a value only. -/
def LineState.Fine (s : LineState) : Prop := s.hadValue → s.state = .value

structure Related (qt : Qt) (keys : Keys) (url : QString) (s : LineState) (r : Reading Questions)
    (w : Writing) (k : Keying) (s' : LineState) (r' : Reading Questions) : Prop where
  fine : s.Fine
  fine' : s'.Fine
  cases : Together qt keys url s r w k s' r' ∨ Behind qt keys url s r w k s' r'

/-! ### The states -/

namespace LineState

theorem Fine.leave (h : s.Fine) : s.leave.hadValue = false := by
  rw [LineState.leave]
  split
  · rfl
  · next hne =>
    cases hvalue : s.hadValue with
    | false => rfl
    | true => exact absurd (h hvalue) hne

theorem Fine.enter (h : s.Fine) (token : QString) : (s.enter token).Fine := by
  intro hvalue
  have hleave := h.leave
  rw [LineState.enter, hleave] at hvalue
  cases hvalue

theorem Fine.see (h : s.Fine) (line : QString) : (s.see line).Fine := by
  rw [LineState.see]
  split
  · exact h
  · split
    · next hstate => exact fun _ => hstate
    · next hstate => exact h
    · exact h

theorem see_state (s : LineState) (line : QString) : (s.see line).state = s.state := by
  rw [LineState.see]
  split
  · rfl
  · split <;> rfl

theorem leave_of_ne (h : s.state ≠ .value) : s.leave = s := by
  rw [LineState.leave, if_neg h]

theorem next_value (h : s.next token = .value) (hvalue : s'.hadValue = false) :
    s'.next token = .value := by
  unfold LineState.next at *
  split_ifs at h ⊢ <;> simp_all

theorem next_question (h : s.next token = .question) : s'.next token = .question := by
  unfold LineState.next at *
  split_ifs at h ⊢
  all_goals simp_all

theorem next_keys (h : s.next token = .keys) :
    s.hadKeys = false ∧ s'.next token = if s'.hadKeys then .none else .keys := by
  unfold LineState.next at *
  split_ifs at h ⊢ <;> simp_all

end LineState

/-! ### Leaving a value -/

theorem normalizeQuestion_nil : normalizeQuestion qt [] = [] := rfl

/-- The questions that are taken at the end of a value. -/
theorem SameQuestion.results (h : SameQuestion qt keys r w k r')
    (hres : SameResults keys r.result k.result r'.result) :
    SameResults keys (r.call (addQuestion qt)).result (k.call qt).result
      (r'.call (addQuestion qt)).result := by
  intro n
  simp only [Reading.call, Keying.call, addQuestion, h.question, h.keying]
  by_cases hnil : normalizeQuestion qt r.question.question = []
  · simp only [hnil, if_true]
    exact hres n
  · simp only [hnil, if_false, ExtTreeMap.getElem?_insertIfNew]
    have hn := hres n
    by_cases heq : normalizeQuestion qt r.question.question = n
    · subst heq
      simp only [compare_self, true_and, ExtTreeMap.mem_iff_isSome_getElem?]
      cases hq : r.result[normalizeQuestion qt r.question.question]? with
      | none =>
        rw [hq] at hn
        simp only [hn.1, hn.2, Option.isSome_none, Bool.false_eq_true, not_false_eq_true, if_true]
        refine ⟨_, _, rfl, rfl, rfl, by rw [h.value], ?_⟩
        rw [h.keys, replaced, h.keying]
      | some q =>
        rw [hq] at hn
        obtain ⟨b, q', hb, hq', hn⟩ := hn
        simp only [hb, hq', Option.isSome_some, not_true_eq_false, if_false]
        exact ⟨b, q', rfl, rfl, hn⟩
    · have hne : compare (normalizeQuestion qt r.question.question) n ≠ .eq := by
        rw [ne_eq, LawfulEqOrd.compare_eq_iff_eq]
        exact heq
      simp only [hne, false_and, if_false]
      exact hn

/-- The question is taken, and the next one is not known. -/
theorem SameQuestion.call (w : Writing) :
    SameQuestion qt keys (r.call (addQuestion qt)) { w with question := [], normalized := [] }
      (k.call qt) (r'.call (addQuestion qt)) where
  question := rfl
  written := rfl
  keying := rfl
  normalized := rfl
  value := rfl
  keys := rfl
  known h := by cases h

theorem Related.left (h : Related qt keys url s r w k s' r') (now now' : ReadState) :
    Left qt keys url s.leave (r.change (addQuestion qt) s.state now) (w.change s.state now)
      (k.change qt s.state now) s'.leave (r'.change (addQuestion qt) s'.state now') := by
  rcases h.cases with htogether | hbehind
  · have hstates := htogether.states
    by_cases hvalue : s.state = .value
    · rw [StatesAgree, hvalue] at hstates
      rw [Reading.change, Writing.change, Keying.change, Reading.change, if_pos hvalue,
        if_pos hvalue, if_pos hvalue, if_pos hstates, LineState.leave, LineState.leave,
        if_pos hvalue, if_pos hstates]
      exact ⟨.call w, htogether.same.results htogether.results, htogether.url, rfl, rfl⟩
    · have hvalue' : s'.state ≠ .value := by
        rw [StatesAgree] at hstates
        split at hstates
        · exact hstates
        · exact hstates
        · rw [hstates]
          exact fun heq => by cases heq
        · next heq => exact absurd heq hvalue
        · split at hstates
          · exact hstates.2
          · rw [hstates.2]
            exact fun heq => by cases heq
      rw [Reading.change, Writing.change, Keying.change, Reading.change, if_neg hvalue,
        if_neg hvalue, if_neg hvalue, if_neg hvalue', LineState.leave_of_ne hvalue,
        LineState.leave_of_ne hvalue']
      exact htogether.toLeft
  · have hvalue : s.state ≠ .value := by
      intro heq
      rcases hbehind.state with hs | hs <;> rw [hs] at heq <;> cases heq
    rw [Reading.change, Writing.change, Keying.change, Reading.change, if_neg hvalue,
      if_neg hvalue, if_neg hvalue, if_pos hbehind.state', LineState.leave_of_ne hvalue]
    exact hbehind.left

/-! ### Steps -/

/-- All that is written is a line, and is read in the same way as what it stands for. -/
def Steps (qt : Qt) (keys : Keys) (url : QString) (s : LineState) (r : Reading Questions)
    (w w' : Writing) (k : Keying) (s' : LineState) (r' : Reading Questions) : Prop :=
  ∃ written, (∀ line ∈ written, IsLine qt line) ∧ w'.out = w.out ++ bytesOf written ∧
    Related qt keys url s r w' k (written.foldl (readStep qt) (s', r')).1
      (written.foldl (readStep qt) (s', r')).2

theorem steps_of_out {w₁ w' : Writing} (hout : w₁.out = w.out)
    (h : Steps qt keys url s r w₁ w' k s' r') : Steps qt keys url s r w w' k s' r' := by
  rw [Steps, hout] at h
  exact h

/-- What is read of the keys that are written. -/
def KeysFine (qt : Qt) (keys : Keys) : Prop :=
  ∀ (n : QString) (own : List QString), keys[n]? = some own →
    ∀ key ∈ own, IsLine qt key ∧ token? key = none ∧ key ≠ []

theorem bytesOf_append (a b : List QString) : bytesOf (a ++ b) = bytesOf a ++ bytesOf b :=
  List.flatMap_append

/-- Nothing is written in a section of another kind. -/
theorem Related.skip (h : Related qt keys url s r w k s' r')
    (hstate : (s.enter token).state = .none ∨ (s.enter token).state = .url) (now : ReadState) :
    Related qt keys url (s.enter token) (r.change (addQuestion qt) s.state now)
      (w.change s.state now) (k.change qt s.state now) s' r' := by
  have hleft := h.left now now
  refine ⟨h.fine.enter token, h.fine', ?_⟩
  by_cases hvalue : s'.state = .value
  · right
    have hcall : r'.change (addQuestion qt) s'.state now = r'.call (addQuestion qt) := if_pos hvalue
    rw [hcall] at hleft
    exact ⟨hstate, hvalue, { hleft with }⟩
  · left
    have hkept : r'.change (addQuestion qt) s'.state now = r' := if_neg hvalue
    rw [hkept, LineState.leave_of_ne hvalue] at hleft
    refine ⟨{ hleft with }, ?_⟩
    rw [StatesAgree]
    rcases hstate with hs | hs
    · rw [hs]
      exact hvalue
    · rw [hs]
      exact hvalue

/-- What is read of the head of a section. -/
theorem readStep_token (htoken : token? line = some token) :
    readStep qt (s', r') line =
      (s'.enter token, r'.change (addQuestion qt) s'.state (s'.enter token).state) := by
  rw [readStep, readLine, htoken]
  simp [Reading.line]

theorem readStep_line (hline : token? line = none) :
    readStep qt (s', r') line = (s'.see line, r'.line qt (s'.see line).state line false) := by
  rw [readStep, readLine, hline]

/-- The head of a question or of a value. -/
theorem Related.enter (h : Related qt keys url s r w k s' r') (hline : IsLine qt line)
    (htoken : token? line = some token) (now : ReadState)
    (hstate : (s.enter token).state = .question ∨ (s.enter token).state = .value) :
    Steps qt keys url (s.enter token) (r.change (addQuestion qt) s.state now)
      (w.change s.state now) ((w.change s.state now).writeLine line) (k.change qt s.state now)
      s' r' := by
  have hleft := h.left now (s'.enter token).state
  have hnext : (s'.enter token).state = (s.enter token).state := by
    rcases hstate with hs | hs
    · rw [hs]
      exact LineState.next_question hs
    · rw [hs]
      exact LineState.next_value hs h.fine'.leave
  refine ⟨[line], by simpa using hline, by simp [Writing.writeLine, bytesOf], ?_⟩
  rw [List.foldl_cons, List.foldl_nil, readStep_token htoken]
  refine ⟨h.fine.enter token, h.fine'.enter token, .inl ⟨⟨{ hleft.same with }, hleft.results,
    hleft.url, hleft.hadKeys, hleft.hadKeys'⟩, ?_⟩⟩
  rw [StatesAgree]
  rcases hstate with hs | hs
  · rw [hs, hnext, hs]
  · rw [hs, hnext, hs]

/-! ### Keys -/

/-- The lines that stand for the keys of the user: one at least. -/
def ownLines (own : List QString) : List QString := if own = [] then [[]] else own

theorem isLine_nil : IsLine qt [] := ⟨⟨[], rfl, by simp⟩, by simp, rfl⟩

/-- Texts with ends of lines between them are a text again. -/
theorem bytesOf_join (own : List QString) (key : QString)
    (h : ∀ line ∈ key :: own, IsLine qt line) :
    (∃ cs, join (key :: own) = Utf16.encode cs) ∧
      bytesOf (key :: own) = Utf16.toUtf8 (join (key :: own)) ++ [10] := by
  induction own generalizing key with
  | nil =>
    obtain ⟨⟨cs, hcs, -⟩, -, -⟩ := h key List.mem_cons_self
    have hjoin : join [key] = key := by simp [join]
    rw [hjoin]
    exact ⟨⟨cs, hcs⟩, by simp [bytesOf]⟩
  | cons next own ih =>
    obtain ⟨⟨cs, hcs, -⟩, -, -⟩ := h key List.mem_cons_self
    obtain ⟨⟨cs', hjoin'⟩, hbytes⟩ := ih next fun line hline => h line (List.mem_cons_of_mem key hline)
    have hjoin : join (key :: next :: own) = Utf16.encode (cs ++ Char.ofNat 10 :: cs') := by
      have hten : Utf16.encodeChar (Char.ofNat 10) = [10] := by decide
      rw [Utf16.encode_append, Utf16.encode_cons, ← hcs, ← hjoin', hten]
      simp [join]
    have hsplit : bytesOf (key :: next :: own) =
        Utf16.toUtf8 key ++ [10] ++ bytesOf (next :: own) := rfl
    have hbyte : String.utf8EncodeChar (Char.ofNat 10) = [10] := by decide
    refine ⟨⟨_, hjoin⟩, ?_⟩
    rw [hsplit, hbytes, hjoin, hjoin', hcs, Utf16.toUtf8_encode, Utf16.toUtf8_encode,
      Utf16.toUtf8_encode, Utf8.encode_append, Utf8.encode_cons, hbyte]
    simp

theorem bytesOf_ownLines {own : List QString} (h : ∀ key ∈ own, IsLine qt key) :
    bytesOf (ownLines own) = Utf16.toUtf8 (join own) ++ [10] := by
  rw [ownLines]
  split
  · next hnil =>
    subst hnil
    rfl
  · next hne =>
    obtain ⟨key, rest, rfl⟩ := List.exists_cons_of_ne_nil hne
    exact (bytesOf_join rest key h).2

theorem ownLines_isLine {own : List QString} (h : ∀ key ∈ own, IsLine qt key) :
    ∀ key ∈ ownLines own, IsLine qt key := by
  intro key hkey
  rw [ownLines] at hkey
  split at hkey
  · rw [List.mem_singleton.mp hkey]
    exact isLine_nil
  · exact h key hkey

/-- The keys are read in a list of keys. -/
theorem foldl_keys {own : List QString} (h : ∀ key ∈ own, token? key = none ∧ key ≠ [])
    (hstate : s'.state = .keys) :
    ∃ s₁ r₁, own.foldl (readStep qt) (s', r') = (s₁, r₁) ∧ s₁.state = .keys ∧
      s₁.hadKeys = (s'.hadKeys || decide (own ≠ [])) ∧ s₁.hadValue = s'.hadValue ∧
      r₁.url = r'.url ∧ r₁.result = r'.result ∧ r₁.question.question = r'.question.question ∧
      r₁.question.value = r'.question.value ∧
      r₁.question.originalKeys = r'.question.originalKeys ++ own := by
  induction own generalizing s' r' with
  | nil => exact ⟨s', r', rfl, hstate, by simp, rfl, rfl, rfl, rfl, rfl, by simp⟩
  | cons key own ih =>
    obtain ⟨⟨htoken, hne⟩, hrest⟩ := List.forall_mem_cons.mp h
    have hsee : s'.see key = { s' with hadKeys := true } := by
      rw [LineState.see, if_neg hne, hstate]
    obtain ⟨s₁, r₁, hfold, hs₁, hhad, hvalue, hurl, hresult, hquestion, hval, hkeys⟩ :=
      @ih { s' with hadKeys := true } (r'.line qt s'.state key false) hrest hstate
    refine ⟨s₁, r₁, ?_, hs₁, ?_, hvalue, ?_, ?_, ?_, ?_, ?_⟩
    · rw [List.foldl_cons, readStep_line htoken, hsee]
      exact hfold
    · rw [hhad]
      simp
    · rw [hurl]
      simp [Reading.line, hstate, hne]
    · rw [hresult]
      simp [Reading.line, hstate, hne]
    · rw [hquestion]
      simp [Reading.line, hstate, hne]
    · rw [hval]
      simp [Reading.line, hstate, hne]
    · rw [hkeys]
      simp [Reading.line, hstate, hne]

/-- A list of keys behind another one is not read. -/
theorem foldl_none {written : List QString} (h : ∀ line ∈ written, token? line = none)
    (hstate : s'.state = .none) : written.foldl (readStep qt) (s', r') = (s', r') := by
  induction written with
  | nil => rfl
  | cons line written ih =>
    obtain ⟨hline, hrest⟩ := List.forall_mem_cons.mp h
    have hsee : s'.see line = s' := by
      rw [LineState.see, hstate]
      split <;> rfl
    rw [List.foldl_cons, readStep_line hline, hsee, hstate]
    exact ih hrest

/-- The keys of the blob stay: the question is not known yet, or the user had none for it. -/
theorem Left.plainKeys
    (h : Left qt keys url s.leave r w k s'.leave
      (r'.change (addQuestion qt) s'.state (s'.enter token).state)) (k₂ : Keying)
    (hfine : (s.enter token).Fine) (hfine' : (s'.enter token).Fine) (hline : IsLine qt line)
    (htoken : token? line = some token) (hstate : (s.enter token).state = .keys)
    (hquestion : k₂.question = k.question) (hresult : k₂.result = k.result)
    (hknown : k₂.keyed → normalizeQuestion qt r.question.question ≠ [])
    (hnone : replaced qt keys k = none) (hnone₂ : replaced qt keys k₂ = none) :
    Steps qt keys url (s.enter token) r w { w.writeLine line with ownKeysWritten := false } k₂
      s' r' := by
  obtain ⟨hhad, hnext⟩ := @LineState.next_keys _ s'.leave _ hstate
  have horiginal := h.same.keys
  rw [hnone, Option.getD_none] at horiginal
  have hhad' : s'.leave.hadKeys = false := by
    rw [h.hadKeys', horiginal, ← h.hadKeys, hhad]
  have hkeys : (s'.enter token).state = .keys := by
    rw [hhad'] at hnext
    exact hnext
  refine ⟨[line], by simpa using hline, by simp [Writing.writeLine, bytesOf], ?_⟩
  rw [List.foldl_cons, List.foldl_nil, readStep_token htoken]
  refine ⟨hfine, hfine', .inl ⟨⟨⟨h.same.question, h.same.written, ?_, h.same.normalized,
    h.same.value, ?_, hknown⟩, ?_, h.url, h.hadKeys, h.hadKeys'⟩, ?_⟩⟩
  · rw [hquestion, h.same.keying]
  · rw [hnone₂, Option.getD_none]
    exact horiginal
  · rw [hresult]
    exact h.results
  · rw [StatesAgree, hstate]
    exact ⟨hnone₂, hkeys⟩

/-- The keys of the user take the place of those in the blob. -/
theorem Left.ownKeys {own : List QString}
    (h : Left qt keys url s.leave r w k s'.leave
      (r'.change (addQuestion qt) s'.state (s'.enter token).state)) (k₂ : Keying)
    (hfine : (s.enter token).Fine) (hfine' : (s'.enter token).Fine) (hline : IsLine qt line)
    (htoken : token? line = some token) (hstate : (s.enter token).state = .keys)
    (hquestion : k₂.question = k.question) (hresult : k₂.result = k.result)
    (hkeyed : k₂.keyed = true) (hknown : normalizeQuestion qt r.question.question ≠ [])
    (hown : keys[normalizeQuestion qt r.question.question]? = some own)
    (hlines : ∀ key ∈ own, IsLine qt key ∧ token? key = none ∧ key ≠ []) :
    Steps qt keys url (s.enter token) r w
      { (w.writeLine line).writeLine (join own) with ownKeysWritten := true } k₂ s' r' := by
  obtain ⟨hhad, hnext⟩ := @LineState.next_keys _ s'.leave _ hstate
  have hnil : r.question.originalKeys = [] := by
    have hdecide := h.hadKeys
    rw [hhad] at hdecide
    simpa using hdecide.symm
  have hreplaced : replaced qt keys k₂ = some own := by
    rw [replaced, hkeyed, if_pos rfl, hquestion, h.same.keying, hown]
  have hkey : ∀ key ∈ own, IsLine qt key := fun key hmem => (hlines key hmem).1
  refine ⟨line :: ownLines own, ?_, ?_, ?_⟩
  · intro l hl
    rcases List.mem_cons.mp hl with rfl | hl
    · exact hline
    · exact ownLines_isLine hkey l hl
  · have hsplit : bytesOf (line :: ownLines own) =
        Utf16.toUtf8 line ++ [10] ++ bytesOf (ownLines own) := rfl
    rw [hsplit, bytesOf_ownLines hkey]
    simp [Writing.writeLine]
  · rw [List.foldl_cons, readStep_token htoken]
    have hinside : ∀ s₁ r₁, s₁.Fine → r₁.url = url →
        r₁.result = (r'.change (addQuestion qt) s'.state (s'.enter token).state).result →
        r₁.question.question = r.question.question → r₁.question.value = r.question.value →
        r₁.question.originalKeys = own → s₁.hadKeys = decide (own ≠ []) → s₁.state ≠ .value →
        Related qt keys url (s.enter token) r
          { (w.writeLine line).writeLine (join own) with ownKeysWritten := true } k₂ s₁ r₁ := by
      intro s₁ r₁ hs₁ hurl hres hq hval horiginal hhad₁ hne
      refine ⟨hfine, hs₁, .inl ⟨⟨⟨hq, h.same.written, ?_, h.same.normalized, hval, ?_,
        fun _ => hknown⟩, ?_, hurl, h.hadKeys, ?_⟩, ?_⟩⟩
      · rw [hquestion, h.same.keying]
      · rw [hreplaced, Option.getD_some]
        exact horiginal
      · rw [hresult, hres]
        exact h.results
      · rw [hhad₁, horiginal]
      · rw [StatesAgree, hstate]
        exact ⟨by rw [hreplaced]; rfl, hne⟩
    cases hhad' : s'.leave.hadKeys with
    | true =>
      -- keys were written already, and they are the same ones
      have hstate' : (s'.enter token).state = .none := by
        rw [hhad'] at hnext
        exact hnext
      have htokens : ∀ l ∈ ownLines own, token? l = none := by
        intro l hl
        rw [ownLines] at hl
        split at hl
        · rw [List.mem_singleton.mp hl]
          rfl
        · exact (hlines l hl).2.1
      have hne : (r'.change (addQuestion qt) s'.state
          (s'.enter token).state).question.originalKeys ≠ [] := by
        have hdecide := h.hadKeys'
        rw [hhad'] at hdecide
        simpa using hdecide.symm
      have horiginal := h.same.keys
      rw [replaced, h.same.keying, hown, hnil] at horiginal
      have hsame : (r'.change (addQuestion qt) s'.state
          (s'.enter token).state).question.originalKeys = own := by
        rw [horiginal] at hne ⊢
        split at hne
        · next hkeyed => rw [if_pos hkeyed, Option.getD_some]
        · exact absurd rfl hne
      rw [foldl_none htokens hstate']
      refine hinside _ _ hfine' h.url rfl h.same.question h.same.value hsame ?_ ?_
      · rw [← hsame]
        exact h.hadKeys'
      · rw [hstate']
        exact fun heq => by cases heq
    | false =>
      have hstate' : (s'.enter token).state = .keys := by
        rw [hhad'] at hnext
        exact hnext
      have hempty : (r'.change (addQuestion qt) s'.state
          (s'.enter token).state).question.originalKeys = [] := by
        have hdecide := h.hadKeys'
        rw [hhad'] at hdecide
        simpa using hdecide.symm
      have hhadEnter : (s'.enter token).hadKeys = false := hhad'
      by_cases hnone : own = []
      · subst hnone
        have hsee : (s'.enter token).see [] = s'.enter token := rfl
        rw [ownLines, if_pos rfl, List.foldl_cons, List.foldl_nil, readStep_line rfl, hsee, hstate']
        refine hinside _ _ hfine' h.url rfl h.same.question h.same.value hempty ?_ ?_
        · exact hhadEnter
        · rw [hstate']
          exact fun heq => by cases heq
      · obtain ⟨s₁, r₁, hfold, hs₁, hhad₁, hvalue, hurl, hres, hq, hval, hkeys₁⟩ :=
          @foldl_keys qt _ (r'.change (addQuestion qt) s'.state (s'.enter token).state) own
            (fun key hmem => (hlines key hmem).2) hstate'
        rw [ownLines, if_neg hnone, hfold]
        refine hinside s₁ r₁ ?_ (hurl.trans h.url) hres (hq.trans h.same.question)
          (hval.trans h.same.value) ?_ ?_ ?_
        · intro hvalue₁
          have hleave := hfine' (hvalue ▸ hvalue₁)
          rw [hstate'] at hleave
          cases hleave
        · rw [hkeys₁, hempty, List.nil_append]
        · rw [hhad₁, hhadEnter, Bool.false_or]
        · rw [hs₁]
          exact fun heq => by cases heq

/-- The keys after the head of their list. -/
theorem Related.enterKeys (hkeys : KeysFine qt keys) (h : Related qt keys url s r w k s' r')
    (hline : IsLine qt line) (htoken : token? line = some token) (now : ReadState)
    (hstate : (s.enter token).state = .keys) :
    Steps qt keys url (s.enter token) (r.change (addQuestion qt) s.state now)
      (w.change s.state now) (((w.change s.state now).writeLine line).writeOwnKeys keys)
      ((k.change qt s.state now).line qt .keys line true) s' r' := by
  have hleft := h.left now (s'.enter token).state
  have hfine := h.fine.enter token
  have hfine' := h.fine'.enter token
  generalize r.change (addQuestion qt) s.state now = r₁ at *
  generalize w.change s.state now = w₁ at *
  generalize k.change qt s.state now = k₁ at *
  have hnormalized : (w₁.writeLine line).normalized = normalizeQuestion qt r₁.question.question :=
    hleft.same.normalized
  have hkeying := hleft.same.keying
  by_cases hnil : normalizeQuestion qt r₁.question.question = []
  · have hnone : replaced qt keys k₁ = none := by
      rw [replaced, if_neg]
      exact fun hkeyed => hleft.same.known hkeyed hnil
    rw [Writing.writeOwnKeys, if_pos (hnormalized.trans hnil), Keying.line, hkeying,
      if_neg (by simp [hnil])]
    exact hleft.plainKeys k₁ hfine hfine' hline htoken hstate rfl rfl hleft.same.known hnone hnone
  · rw [Writing.writeOwnKeys, if_neg (by rw [hnormalized]; exact hnil)]
    have hkeyed : k₁.line qt .keys line true = { k₁ with keyed := true } := by
      rw [Keying.line, if_pos (by simp [hkeying, hnil])]
    rw [hkeyed]
    cases hown : keys[normalizeQuestion qt r₁.question.question]? with
    | none =>
      have hnone : replaced qt keys k₁ = none := by
        rw [replaced, hkeying, hown, ite_self]
      have hnone₂ : replaced qt keys { k₁ with keyed := true } = none := by
        rw [replaced, hkeying, hown, ite_self]
      have hfound : keys[(w₁.writeLine line).normalized]? = none := by
        rw [hnormalized]
        exact hown
      rw [hfound]
      exact hleft.plainKeys { k₁ with keyed := true } hfine hfine' hline htoken hstate rfl rfl
        (fun _ => hnil) hnone hnone₂
    | some own =>
      have hfound : keys[(w₁.writeLine line).normalized]? = some own := by
        rw [hnormalized]
        exact hown
      rw [hfound]
      exact hleft.ownKeys { k₁ with keyed := true } hfine hfine' hline htoken hstate rfl rfl rfl
        hnil hown (hkeys _ own hown)

/-! ### Other lines -/

theorem steps_nil {w' : Writing} (h : Related qt keys url s r w' k s' r') (hout : w'.out = w.out) :
    Steps qt keys url s r w w' k s' r' :=
  ⟨[], by simp, by simp [hout, bytesOf], h⟩

/-- A line of a section that is not read for questions. -/
theorem Related.ignored (h : Related qt keys url s r w k s' r')
    (hstate : s.state = .none ∨ s.state = .url) (line : QString) :
    Related qt keys url (s.see line) (r.line qt s.state line false) w k s' r' := by
  have hsee : s.see line = s := by
    rw [LineState.see]
    rcases hstate with hs | hs <;> rw [hs] <;> split <;> rfl
  have hread : (r.line qt s.state line false).question = r.question ∧
      (r.line qt s.state line false).result = r.result := by
    rcases hstate with hs | hs
    · rw [hs]
      exact ⟨rfl, rfl⟩
    · rw [hs, Reading.line]
      simp only [Bool.false_eq_true, if_false]
      split <;> exact ⟨rfl, rfl⟩
  generalize r.line qt s.state line false = r₁ at hread ⊢
  have hleft : ∀ {s'' : LineState} {r'' : Reading Questions}, Left qt keys url s r w k s'' r'' →
      Left qt keys url s r₁ w k s'' r'' := by
    intro s'' r'' hl
    obtain ⟨hq, hres⟩ := hread
    exact ⟨⟨by rw [hq]; exact hl.same.question, by rw [hq]; exact hl.same.written,
      by rw [hq]; exact hl.same.keying, by rw [hq]; exact hl.same.normalized,
      by rw [hq]; exact hl.same.value, by rw [hq]; exact hl.same.keys,
      by rw [hq]; exact hl.same.known⟩, by rw [hres]; exact hl.results, hl.url,
      by rw [hq]; exact hl.hadKeys, hl.hadKeys'⟩
  rw [hsee]
  refine ⟨h.fine, h.fine', ?_⟩
  rcases h.cases with htogether | hbehind
  · exact .inl ⟨hleft htogether.toLeft, htogether.states⟩
  · exact .inr ⟨hbehind.state, hbehind.state', hleft hbehind.left⟩

theorem Together.seeQuestion (h : Together qt keys url s r w k s' r') (hs : s.state = .question)
    (hfine : s.Fine) (hfine' : s'.Fine) (htoken : token? line = none) (hline : IsLine qt line) :
    Steps qt keys url (s.see line) (r.line qt s.state line false) w
      (w.line qt keys s.state line false) (k.line qt s.state line false) s' r' := by
  have hs' : s'.state = .question := by
    have hstates := h.states
    rw [StatesAgree, hs] at hstates
    exact hstates
  have hsee : s.see line = s := by
    rw [LineState.see, hs]
    split <;> rfl
  have hsee' : s'.see line = s' := by
    rw [LineState.see, hs']
    split <;> rfl
  have hstates : ∀ w₁ k₁, StatesAgree qt keys s w₁ k₁ s' := by
    intro w₁ k₁
    rw [StatesAgree, hs]
    exact hs'
  have hout : (w.line qt keys s.state line false).out = w.out ++ bytesOf [line] := by
    rw [hs, Writing.line]
    split <;> simp [Writing.writeLine, bytesOf]
  refine ⟨[line], by simpa using hline, hout, ?_⟩
  rw [List.foldl_cons, List.foldl_nil, readStep_line htoken, hsee, hsee', hs, hs']
  refine ⟨hfine, hfine', .inl ⟨?_, hstates _ _⟩⟩
  by_cases hknown : r.question.question = []
  · -- no keys are behind a question that was not known
    have hkeyed : k.keyed = false := by
      rw [← Bool.not_eq_true]
      intro hkeyed
      exact h.same.known hkeyed (by rw [hknown]; rfl)
    have hreplaced : ∀ k₁ : Keying, k₁.keyed = k.keyed → replaced qt keys k₁ = none := by
      intro k₁ hk₁
      rw [replaced, hk₁, hkeyed]
      rfl
    have horiginal := h.same.keys
    rw [hreplaced k rfl, Option.getD_none] at horiginal
    have hread : r.line qt .question line false =
        { r with question := { r.question with question := line } } := by
      rw [Reading.line, if_neg (by simp)]
      simp only [hknown, if_true]
    have hread' : r'.line qt .question line false =
        { r' with question := { r'.question with question := line } } := by
      rw [Reading.line, if_neg (by simp)]
      simp only [h.same.question, hknown, if_true]
    have hwrite : w.line qt keys .question line false =
        { w.writeLine line with question := line, normalized := normalizeQuestion qt line } := by
      rw [Writing.line, if_pos ⟨rfl, h.same.written.trans hknown⟩]
    have hkeying : k.line qt .question line false = { k with question := line } := by
      rw [Keying.line, if_pos ⟨rfl, h.same.keying.trans hknown⟩]
    rw [hread, hread', hwrite, hkeying]
    refine ⟨⟨rfl, rfl, rfl, rfl, h.same.value, ?_, ?_⟩, h.results, h.url, h.hadKeys, h.hadKeys'⟩
    · rw [hreplaced { k with question := line } rfl, Option.getD_none]
      exact horiginal
    · intro hkeyed'
      rw [hkeyed] at hkeyed'
      cases hkeyed'
  · have hread : r.line qt .question line false = r := by
      rw [Reading.line, if_neg (by simp)]
      simp only [hknown, if_false]
    have hread' : r'.line qt .question line false = r' := by
      rw [Reading.line, if_neg (by simp)]
      simp only [h.same.question, hknown, if_false]
    have hwrite : w.line qt keys .question line false = w.writeLine line := by
      rw [Writing.line, if_neg (fun hboth => hknown (h.same.written.symm.trans hboth.2))]
    have hkeying : k.line qt .question line false = k := by
      rw [Keying.line, if_neg (fun hboth => hknown (h.same.keying.symm.trans hboth.2))]
    rw [hread, hread', hwrite, hkeying]
    exact { h.toLeft with same := { h.same with } }

theorem Together.seeValue (h : Together qt keys url s r w k s' r') (hs : s.state = .value)
    (hfine : s.Fine) (hfine' : s'.Fine) (htoken : token? line = none) (hline : IsLine qt line) :
    Steps qt keys url (s.see line) (r.line qt s.state line false) w
      (w.line qt keys s.state line false) (k.line qt s.state line false) s' r' := by
  have hs' : s'.state = .value := by
    have hstates := h.states
    rw [StatesAgree, hs] at hstates
    exact hstates
  have hhad : ∀ s : LineState, s.state = .value → (s.see line).hadKeys = s.hadKeys := by
    intro s hs
    rw [LineState.see, hs]
    split <;> rfl
  refine ⟨[line], by simpa using hline, by simp [Writing.line, Writing.writeLine, bytesOf, hs], ?_⟩
  rw [List.foldl_cons, List.foldl_nil, readStep_line htoken, LineState.see_state, hs, hs']
  refine ⟨hfine.see line, hfine'.see line, .inl ⟨⟨⟨h.same.question, h.same.written, h.same.keying,
    h.same.normalized, ?_, h.same.keys, h.same.known⟩, h.results, h.url, ?_, ?_⟩, ?_⟩⟩
  · simp only [Reading.line, Bool.false_eq_true, if_false, h.same.value]
  · rw [hhad s hs]
    exact h.hadKeys
  · rw [hhad s' hs']
    exact h.hadKeys'
  · rw [StatesAgree, LineState.see_state, LineState.see_state, hs]
    exact hs'

theorem Together.seeKeys (h : Together qt keys url s r w k s' r') (hs : s.state = .keys)
    (hfine : s.Fine) (hfine' : s'.Fine) (htoken : token? line = none) (hline : IsLine qt line) :
    Steps qt keys url (s.see line) (r.line qt s.state line false) w
      (w.line qt keys s.state line false) (k.line qt s.state line false) s' r' := by
  have hstates := h.states
  rw [StatesAgree, hs] at hstates
  have hkeying : k.line qt s.state line false = k := by
    rw [hs, Keying.line, if_neg (by simp)]
  have hhad : ∀ (s : LineState) (r : Reading Questions), s.state = .keys →
      s.hadKeys = decide (r.question.originalKeys ≠ []) →
      (s.see line).hadKeys = decide ((r.line qt .keys line false).question.originalKeys ≠ []) := by
    intro s r hs hhad
    by_cases hnil : line = []
    · simpa [LineState.see, Reading.line, hnil] using hhad
    · simp [LineState.see, Reading.line, hnil, hs]
  have hread : (r.line qt .keys line false).question.question = r.question.question ∧
      (r.line qt .keys line false).question.value = r.question.value ∧
      (r.line qt .keys line false).result = r.result := by
    by_cases hnil : line = [] <;> simp [Reading.line, hnil]
  rw [hkeying, hs]
  cases hown : w.ownKeysWritten with
  | true =>
    rw [hown, if_pos rfl] at hstates
    obtain ⟨own, hreplaced⟩ := Option.isSome_iff_exists.mp hstates.1
    have hwrite : w.line qt keys .keys line false = w := by
      rw [Writing.line, if_neg (by simp), if_pos hown]
    rw [hwrite]
    refine steps_nil ⟨hfine.see line, hfine', .inl ⟨⟨⟨?_, ?_, ?_, ?_, ?_, ?_, ?_⟩, ?_, h.url,
      hhad s r hs h.hadKeys, h.hadKeys'⟩, ?_⟩⟩ rfl
    · rw [hread.1]
      exact h.same.question
    · rw [hread.1]
      exact h.same.written
    · rw [hread.1]
      exact h.same.keying
    · rw [hread.1]
      exact h.same.normalized
    · rw [hread.2.1]
      exact h.same.value
    · rw [h.same.keys, hreplaced]
      rfl
    · rw [hread.1]
      exact h.same.known
    · rw [hread.2.2]
      exact h.results
    · rw [StatesAgree, LineState.see_state, hs, hown]
      exact hstates
  | false =>
    rw [hown, if_neg (by simp)] at hstates
    obtain ⟨hreplaced, hs'⟩ := hstates
    have horiginal := h.same.keys
    rw [hreplaced, Option.getD_none] at horiginal
    have hwrite : w.line qt keys .keys line false = w.writeLine line := by
      rw [Writing.line, if_neg (by simp), if_neg (by simp [hown])]
    have hread' : (r'.line qt .keys line false).question.question = r'.question.question ∧
        (r'.line qt .keys line false).question.value = r'.question.value ∧
        (r'.line qt .keys line false).result = r'.result ∧
        (r'.line qt .keys line false).url = r'.url := by
      by_cases hnil : line = [] <;> simp [Reading.line, hnil]
    have hkeys : (r'.line qt .keys line false).question.originalKeys =
        (r.line qt .keys line false).question.originalKeys := by
      by_cases hnil : line = [] <;> simp [Reading.line, hnil, horiginal]
    rw [hwrite]
    refine ⟨[line], by simpa using hline, by simp [Writing.writeLine, bytesOf], ?_⟩
    rw [List.foldl_cons, List.foldl_nil, readStep_line htoken, LineState.see_state, hs']
    refine ⟨hfine.see line, hfine'.see line, .inl ⟨⟨⟨?_, ?_, ?_, ?_, ?_, ?_, ?_⟩, ?_, ?_,
      hhad s r hs h.hadKeys, hhad s' r' hs' h.hadKeys'⟩, ?_⟩⟩
    · rw [hread.1, hread'.1]
      exact h.same.question
    · rw [hread.1]
      exact h.same.written
    · rw [hread.1]
      exact h.same.keying
    · rw [hread.1]
      exact h.same.normalized
    · rw [hread.2.1, hread'.2.1]
      exact h.same.value
    · rw [hreplaced, Option.getD_none]
      exact hkeys
    · rw [hread.1]
      exact h.same.known
    · rw [hread.2.2, hread'.2.2.1]
      exact h.results
    · rw [hread'.2.2.2]
      exact h.url
    · rw [StatesAgree, LineState.see_state, LineState.see_state, hs]
      simp only [Writing.writeLine, hown, Bool.false_eq_true, if_false]
      exact ⟨hreplaced, hs'⟩

/-! ## Runs -/

theorem writeStep_token (htoken : token? line = some token) :
    writeStep qt keys (s, w) line = (s.enter token,
      (w.change s.state (s.enter token).state).line qt keys (s.enter token).state line true) := by
  rw [writeStep, readLine, htoken]

theorem keyStep_token (htoken : token? line = some token) :
    keyStep qt (s, k) line = (s.enter token,
      (k.change qt s.state (s.enter token).state).line qt (s.enter token).state line true) := by
  rw [keyStep, readLine, htoken]

theorem writeStep_line (hline : token? line = none) :
    writeStep qt keys (s, w) line =
      (s.see line, w.line qt keys (s.see line).state line false) := by
  rw [writeStep, readLine, hline]

theorem keyStep_line (hline : token? line = none) :
    keyStep qt (s, k) line = (s.see line, k.line qt (s.see line).state line false) := by
  rw [keyStep, readLine, hline]

/-- In a section that is written both readers are in it. -/
theorem Related.together {state : ReadState} (h : Related qt keys url s r w k s' r')
    (hs : s.state = state) (hnone : state ≠ .none) (hurl : state ≠ .url) :
    Together qt keys url s r w k s' r' := by
  rcases h.cases with htogether | hbehind
  · exact htogether
  · rcases hbehind.state with hstate | hstate
    · exact absurd (hs.symm.trans hstate) hnone
    · exact absurd (hs.symm.trans hstate) hurl

theorem out_change (w : Writing) (was now : ReadState) : (w.change was now).out = w.out := by
  rw [Writing.change]
  split <;> rfl

/-- One line of the blob. -/
theorem Related.step (hkeys : KeysFine qt keys) (h : Related qt keys url s r w k s' r')
    (hline : IsLine qt line) :
    (writeStep qt keys (s, w) line).1 = (readStep qt (s, r) line).1 ∧
      (keyStep qt (s, k) line).1 = (readStep qt (s, r) line).1 ∧
      Steps qt keys url (readStep qt (s, r) line).1 (readStep qt (s, r) line).2 w
        (writeStep qt keys (s, w) line).2 (keyStep qt (s, k) line).2 s' r' := by
  cases htoken : token? line with
  | some token =>
    rw [readStep_token htoken, writeStep_token htoken, keyStep_token htoken]
    refine ⟨rfl, rfl, ?_⟩
    cases hstate : (s.enter token).state with
    | none => exact steps_nil (h.skip (.inl hstate) .none) (out_change w s.state .none)
    | url => exact steps_nil (h.skip (.inr hstate) .url) (out_change w s.state .url)
    | question =>
      have hwrite : (w.change s.state .question).line qt keys .question line true =
          (w.change s.state .question).writeLine line := by
        rw [Writing.line, if_neg (by simp)]
      have hkeying : (k.change qt s.state .question).line qt .question line true =
          k.change qt s.state .question := by
        rw [Keying.line, if_neg (by simp)]
      rw [hwrite, hkeying]
      exact steps_of_out (out_change w _ _) (h.enter hline htoken .question (.inl hstate))
    | value => exact steps_of_out (out_change w _ _) (h.enter hline htoken .value (.inr hstate))
    | keys =>
      have hwrite : (w.change s.state .keys).line qt keys .keys line true =
          ((w.change s.state .keys).writeLine line).writeOwnKeys keys := by
        rw [Writing.line, if_pos rfl]
      rw [hwrite]
      exact steps_of_out (out_change w _ _) (h.enterKeys hkeys hline htoken .keys hstate)
  | none =>
    rw [readStep_line htoken, writeStep_line htoken, keyStep_line htoken, LineState.see_state]
    refine ⟨rfl, rfl, ?_⟩
    cases hstate : s.state with
    | none =>
      have hignored := h.ignored (.inl hstate) line
      rw [hstate] at hignored
      exact steps_nil hignored rfl
    | url =>
      have hignored := h.ignored (.inr hstate) line
      rw [hstate] at hignored
      exact steps_nil hignored rfl
    | question =>
      have hquestion := (h.together hstate (by simp) (by simp)).seeQuestion hstate h.fine h.fine'
        htoken hline
      rw [hstate] at hquestion
      exact hquestion
    | value =>
      have hvalue := (h.together hstate (by simp) (by simp)).seeValue hstate h.fine h.fine'
        htoken hline
      rw [hstate] at hvalue
      exact hvalue
    | keys =>
      have hlist := (h.together hstate (by simp) (by simp)).seeKeys hstate h.fine h.fine'
        htoken hline
      rw [hstate] at hlist
      exact hlist

end TelegramClient.Support
