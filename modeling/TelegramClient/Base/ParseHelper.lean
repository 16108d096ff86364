import TelegramClient.Lib.Loops

/-! Texts without their comments (`base/parse_helper.cpp`). -/

namespace TelegramClient.Base.Parse

def quote : UInt8 := 0x22

def backslash : UInt8 := 0x5C

def slash : UInt8 := 0x2F

def star : UInt8 := 0x2A

def cr : UInt8 := 0x0D

def lf : UInt8 := 0x0A

def space : UInt8 := 0x20

inductive InsideComment where
  | none
  | singleLine
  | multiLine
  deriving DecidableEq

/-- The places `offset` and `ch` are counted from the start of the text. -/
structure Scan where
  insideComment : InsideComment
  insideString : Bool
  result : List UInt8
  offset : Nat
  ch : Nat

section Source

variable (content : List UInt8)

def feedContent (s : Scan) (ch : Nat) : Scan :=
  if ch > s.offset then
    { s with result := s.result ++ (content.drop s.offset).take (ch - s.offset), offset := ch }
  else s

def feedComment (s : Scan) (ch : Nat) : Scan :=
  if ch > s.offset then { s with result := s.result ++ [space], offset := ch } else s

/-- `none` where a byte before the text is read. -/
def escaped (ch : Nat) : Option Bool :=
  if ch > 0 then
    if content[ch - 1]? = some backslash then
      if ch - 1 < 0 then some true
      else if ch < 2 then none
      else some (content[ch - 2]? ≠ some backslash)
    else some false
  else some false

def finish (s : Scan) : List UInt8 :=
  if s.insideComment = .none ∧ content.length > s.offset then
    if s.result.isEmpty then content else s.result ++ content.drop s.offset
  else s.result

/-- What follows the change of `insideString`. -/
def advance (s : Scan) (currentChar nextChar : UInt8) : Scan :=
  let ch := s.ch
  if s.insideString then { s with ch := ch + 1 }
  else if s.insideComment = .none ∧ currentChar = slash ∧ nextChar = slash then
    { feedContent content s ch with insideComment := .singleLine, ch := ch + 2 }
  else if s.insideComment = .singleLine ∧ currentChar = cr ∧ nextChar = lf then
    { feedComment s ch with insideComment := .none, ch := ch + 2 }
  else if s.insideComment = .singleLine ∧ currentChar = lf then
    { feedComment s ch with insideComment := .none, ch := ch + 1 }
  else if s.insideComment = .none ∧ currentChar = slash ∧ nextChar = star then
    { feedContent content s ch with insideComment := .multiLine, ch := ch + 2 }
  else if s.insideComment = .multiLine ∧ currentChar = star ∧ nextChar = slash then
    { feedComment s (ch + 2) with insideComment := .none, ch := ch + 2 }
  else if s.insideComment = .multiLine ∧ currentChar = cr ∧ nextChar = lf then
    { feedContent content (feedComment s ch) (ch + 2) with ch := ch + 2 }
  else if s.insideComment = .multiLine ∧ currentChar = lf then
    { feedContent content (feedComment s ch) (ch + 1) with ch := ch + 1 }
  else { s with ch := ch + 1 }

/-- One round of the loop; the result is `none` where a byte outside of the text is read. -/
def scanStep (s : Scan) : Option (List UInt8) ⊕ Scan :=
  match content.drop s.ch with
  | [] => .inl (some (finish content s))
  | currentChar :: rest =>
    let nextChar := rest.headD 0
    if s.insideComment = .none ∧ currentChar = quote then
      match escaped content s.ch with
      | none => .inl none
      | some true => .inr (advance content s currentChar nextChar)
      | some false => .inr (advance content { s with insideString := !s.insideString } currentChar
          nextChar)
    else .inr (advance content s currentChar nextChar)

def stripComments : Option (List UInt8) :=
  (Loops.iterate (scanStep content) (content.length + 1) ⟨.none, false, [], 0, 0⟩).join

end Source

/-- The parts of a text: outside of comments with how many backslashes stand before, in a comment
of one line, in one of several with whether its line has bytes, and one byte before another part. -/
inductive Part where
  | code (insideString : Bool) (run : Nat)
  | line
  | block (more : Bool)
  | skip (next : Part)
  deriving DecidableEq

def Part.runAfter (run : Nat) (c : UInt8) : Nat := if c = backslash then run + 1 else 0

def isLineEnd (c next : UInt8) : Prop := c = cr ∧ next = lf ∨ c = lf

instance (c next : UInt8) : Decidable (isLineEnd c next) := inferInstanceAs (Decidable (_ ∨ _))

/-- What comes for a byte, and the part after it, where `escaped` says which quotes are escaped by
the backslashes before them. -/
def Part.step (escaped : Nat → Bool) : Part → UInt8 → UInt8 → List UInt8 × Part
  | .code insideString run, c, next =>
    if c = quote ∧ escaped run = false then ([c], .code (!insideString) 0)
    else if insideString then ([c], .code true (runAfter run c))
    else if c = slash ∧ next = slash then ([], .skip .line)
    else if c = slash ∧ next = star then ([], .skip (.block true))
    else ([c], .code false (runAfter run c))
  | .line, c, next => if isLineEnd c next then ([space, c], .code false 0) else ([], .line)
  | .block more, c, next =>
    if c = star ∧ next = slash then ([space], .skip (.code false 0))
    else if isLineEnd c next then ((if more then [space] else []) ++ [c], .block false)
    else ([], .block true)
  | .skip part, _, _ => ([], part)

def strip (escaped : Nat → Bool) : Part → List UInt8 → List UInt8
  | _, [] => []
  | part, c :: rest =>
    let after := part.step escaped c (rest.headD 0)
    after.1 ++ strip escaped after.2 rest

/-- A backslash escapes what follows, so an odd number of them escapes a quote. -/
def byParity (run : Nat) : Bool := run % 2 = 1

/-- What two bytes tell: one backslash and no other before it. -/
def byTwo (run : Nat) : Bool := run = 1

/-- The text without its comments. -/
def stripped (content : List UInt8) : List UInt8 := strip byParity (.code false 0) content

section Scanning

variable {content : List UInt8} {s : Scan} {c next : UInt8} {rest : List UInt8} {i j : Nat}

/-- The bytes from one place to another. -/
def between (content : List UInt8) (i j : Nat) : List UInt8 := (content.drop i).take (j - i)

theorem between_self (content : List UInt8) (i : Nat) : between content i i = [] := by
  rw [between, Nat.sub_self, List.take_zero]

theorem between_succ (h : content.drop j = c :: rest) (hij : i ≤ j) :
    between content i (j + 1) = between content i j ++ [c] := by
  have hget : (content.drop i)[j - i]? = some c := by
    rw [List.getElem?_drop, Nat.add_sub_cancel' hij, ← List.head?_drop, h, List.head?_cons]
  rw [between, between, Nat.sub_add_comm hij, List.take_add_one, hget]
  rfl

/-- How many backslashes stand right before a place. -/
def runBefore (content : List UInt8) (ch : Nat) : Nat :=
  ((content.take ch).reverse.takeWhile (· == backslash)).length

theorem runBefore_succ (h : content.drop j = c :: rest) :
    runBefore content (j + 1) = Part.runAfter (runBefore content j) c := by
  have hget : content[j]? = some c := by rw [← List.head?_drop, h, List.head?_cons]
  rw [runBefore, List.take_add_one, hget, Option.toList_some, List.reverse_append,
    List.reverse_singleton, List.singleton_append, List.takeWhile_cons, Part.runAfter]
  by_cases hc : c = backslash
  · simp [hc, runBefore]
  · simp [hc]

theorem runBefore_succ_of_ne (h : content.drop j = c :: rest) (hc : c ≠ backslash) :
    runBefore content (j + 1) = 0 := by
  rw [runBefore_succ h, Part.runAfter, if_neg hc]

theorem drop_succ (h : content.drop j = c :: rest) : content.drop (j + 1) = rest := by
  rw [← List.drop_drop, h, List.drop_succ_cons, List.drop_zero]

theorem exists_drop (h : i < content.length) : ∃ c rest, content.drop i = c :: rest ∧
    content[i]? = some c :=
  ⟨content[i], content.drop (i + 1), List.drop_eq_getElem_cons h, List.getElem?_eq_getElem h⟩

theorem lt_length (h : content.drop j = c :: rest) : j < content.length := by
  by_contra hle
  rw [List.drop_eq_nil_of_le (Nat.not_lt.mp hle)] at h
  cases h

theorem runBefore_eq_zero_iff (h : i < content.length) :
    runBefore content (i + 1) = 0 ↔ content[i]? ≠ some backslash := by
  obtain ⟨c, rest, hdrop, hget⟩ := exists_drop h
  rw [runBefore_succ hdrop, hget, Part.runAfter]
  by_cases hc : c = backslash
  · simp [hc]
  · simp [hc]

/-- The two bytes before a quote tell whether there is exactly one backslash. -/
theorem escaped_eq (hj : j < content.length) (hfree : ¬(j = 1 ∧ content[0]? = some backslash)) :
    escaped content j = some (byTwo (runBefore content j)) := by
  match j with
  | 0 => rfl
  | j + 1 =>
    obtain ⟨d, rest, hdrop, hget⟩ := exists_drop (Nat.lt_of_succ_lt hj)
    rw [escaped, if_pos (Nat.succ_pos j), Nat.add_sub_cancel, hget]
    by_cases hd : d = backslash
    · have hrun : runBefore content (j + 1) = runBefore content j + 1 := by
        rw [runBefore_succ hdrop, Part.runAfter, if_pos hd]
      match j with
      | 0 => exact absurd ⟨rfl, hd ▸ hget⟩ hfree
      | i + 1 =>
        have hzero := runBefore_eq_zero_iff (i := i) (Nat.lt_of_succ_lt (Nat.lt_of_succ_lt hj))
        rw [if_pos (by rw [hd]), if_neg (Nat.not_lt_zero _), if_neg (by omega), hrun, byTwo]
        simp [hzero]
    · have hrun : runBefore content (j + 1) = 0 := runBefore_succ_of_ne hdrop hd
      rw [if_neg (fun h => hd (Option.some.inj h)), hrun]
      rfl

/-- Between the rounds of the loop. -/
structure Scan.Valid (content : List UInt8) (s : Scan) : Prop where
  offset_le : s.offset ≤ s.ch
  ch_le : s.ch ≤ content.length
  comment : s.insideComment ≠ .none → s.insideString = false
  fed : s.offset = 0 ∨ s.result ≠ []
  line : s.insideComment = .singleLine → s.offset < s.ch

def Scan.part (content : List UInt8) (s : Scan) : Part :=
  match s.insideComment with
  | .none => .code s.insideString (runBefore content s.ch)
  | .singleLine => .line
  | .multiLine => .block (s.offset < s.ch)

/-- What is put out in the end. -/
def Scan.expected (content : List UInt8) (s : Scan) : List UInt8 :=
  s.result ++ (if s.insideComment = .none then between content s.offset s.ch else []) ++
    strip byTwo (s.part content) (content.drop s.ch)

theorem expected_none (h : s.insideComment = .none) : s.expected content =
    s.result ++ between content s.offset s.ch ++
      strip byTwo (s.part content) (content.drop s.ch) := by
  rw [Scan.expected, if_pos h]

theorem expected_comment (h : s.insideComment ≠ .none) : s.expected content =
    s.result ++ strip byTwo (s.part content) (content.drop s.ch) := by
  rw [Scan.expected, if_neg h, List.append_nil]

theorem expected_block (content : List UInt8) (insideString : Bool) (result : List UInt8)
    (offset ch : Nat) : (⟨.multiLine, insideString, result, offset, ch⟩ : Scan).expected content =
      result ++ strip byTwo (.block (offset < ch)) (content.drop ch) :=
  expected_comment nofun

theorem feedContent_eq (h : s.offset ≤ i) : feedContent content s i =
    ⟨s.insideComment, s.insideString, s.result ++ between content s.offset i, i, s.ch⟩ := by
  rw [feedContent]
  split
  · rfl
  · have heq : s.offset = i := by omega
    rw [← heq, between_self, List.append_nil]

theorem feedComment_eq (h : s.offset ≤ i) : feedComment s i =
    ⟨s.insideComment, s.insideString, s.result ++ (if s.offset < i then [space] else []), i, s.ch⟩ := by
  rw [feedComment]
  split
  · rfl
  · have heq : s.offset = i := by omega
    rw [← heq, List.append_nil]

theorem finish_eq (hs : s.Valid content) (hdrop : content.drop s.ch = []) :
    finish content s = s.expected content := by
  have hch : s.ch = content.length :=
    Nat.le_antisymm hs.ch_le (List.drop_eq_nil_iff.mp hdrop)
  rw [finish, Scan.expected, hdrop, strip, List.append_nil]
  by_cases hnone : s.insideComment = .none
  · have hbetween : between content s.offset s.ch = content.drop s.offset := by
      rw [between, hch, List.take_of_length_le (by rw [List.length_drop])]
    rw [if_pos hnone, hbetween]
    by_cases hlt : content.length > s.offset
    · rw [if_pos ⟨hnone, hlt⟩]
      cases hresult : s.result with
      | nil =>
        have hzero := hs.fed.resolve_right (fun h => h hresult)
        rw [hzero]
        rfl
      | cons d result => rfl
    · rw [if_neg (fun h => hlt h.2), List.drop_eq_nil_of_le (by omega), List.append_nil]
  · rw [if_neg (fun h => hnone h.1), if_neg hnone, List.append_nil]

/-- What one round keeps. -/
structure Scan.Next (content : List UInt8) (s t : Scan) : Prop where
  valid : t.Valid content
  expected : t.expected content = s.expected content
  ch_lt : s.ch < t.ch

theorem next_of_out (hs : s.Valid content) (hnone : s.insideComment = .none)
    (hdrop : content.drop s.ch = c :: rest) (insideString : Bool)
    (hstep : (s.part content).step byTwo c (rest.headD 0) =
      ([c], .code insideString (runBefore content (s.ch + 1)))) :
    s.Next content ⟨.none, insideString, s.result, s.offset, s.ch + 1⟩ where
  valid := ⟨Nat.le_succ_of_le hs.offset_le, lt_length hdrop, fun h => absurd rfl h, hs.fed, nofun⟩
  ch_lt := Nat.lt_succ_self _
  expected := by
    rw [expected_none rfl, expected_none hnone, hdrop, strip, hstep,
      between_succ hdrop hs.offset_le, drop_succ hdrop]
    simp [Scan.part]

/-- A comment begins, and the bytes before it are put out. -/
theorem next_of_opening (hs : s.Valid content) (hnone : s.insideComment = .none)
    (hcode : s.insideString = false) {d : UInt8} (hdrop : content.drop s.ch = c :: d :: rest)
    {t : InsideComment} (ht : t ≠ .none)
    (hpart : (⟨t, false, [], s.ch, s.ch + 2⟩ : Scan).part content = part)
    (hstep : (s.part content).step byTwo c d = ([], .skip part)) :
    s.Next content { feedContent content s s.ch with insideComment := t, ch := s.ch + 2 } := by
  have hdrop' := drop_succ (drop_succ hdrop)
  rw [feedContent_eq hs.offset_le]
  refine ⟨⟨by simp, lt_length (drop_succ hdrop), fun _ => hcode, ?_, fun _ => by simp⟩, ?_,
    by simp⟩
  · rcases hs.fed with hzero | hne
    · by_cases hch : s.ch = 0
      · exact .inl hch
      · refine .inr (List.append_ne_nil_of_right_ne_nil _ ?_)
        rw [hzero, between, List.drop_zero, Nat.sub_zero]
        intro hnil
        have hlength := congrArg List.length hnil
        rw [List.length_take_of_le hs.ch_le] at hlength
        exact hch hlength
    · exact .inr (List.append_ne_nil_of_left_ne_nil hne _)
  · have hpart' : (⟨t, s.insideString, s.result ++ between content s.offset s.ch, s.ch, s.ch + 2⟩ :
        Scan).part content = part := by
      rw [← hpart, hcode]
      rfl
    rw [expected_comment ht, expected_none hnone, hpart', hdrop, strip, List.headD_cons, hstep,
      strip]
    simp only [hdrop']
    simp [Part.step]

theorem headD_eq {d : UInt8} (hd : d ≠ 0) (h : rest.headD 0 = d) : ∃ rest', rest = d :: rest' := by
  cases rest with
  | nil => exact absurd h.symm hd
  | cons e rest => exact ⟨rest, by rw [← h]; rfl⟩

theorem next_none (hs : s.Valid content) (hnone : s.insideComment = .none)
    (hdrop : content.drop s.ch = c :: rest) (hc : c ≠ quote) :
    s.Next content (advance content s c (rest.headD 0)) := by
  have hrun := runBefore_succ hdrop
  have hpart : s.part content = .code s.insideString (runBefore content s.ch) := by
    rw [Scan.part, hnone]
  unfold advance
  simp only [hnone]
  by_cases hstring : s.insideString
  · rw [if_pos hstring]
    have hnext := next_of_out hs hnone hdrop true (by
      rw [hpart, hstring, hrun]
      simp [Part.step, hc])
    rw [← hstring] at hnext
    exact hnext
  · have hcode : s.insideString = false := by simpa using hstring
    rw [if_neg hstring]
    by_cases hline : c = slash ∧ rest.headD 0 = slash
    · obtain ⟨rest', rfl⟩ := headD_eq (by decide) hline.2
      rw [if_pos ⟨trivial, hline⟩]
      refine next_of_opening hs hnone hcode hdrop (by decide) rfl ?_
      rw [hpart, hcode, hline.1]
      rfl
    rw [if_neg (fun h => hline h.2), if_neg (fun h => by cases h.1), if_neg (fun h => by cases h.1)]
    by_cases hblock : c = slash ∧ rest.headD 0 = star
    · obtain ⟨rest', rfl⟩ := headD_eq (by decide) hblock.2
      rw [if_pos ⟨trivial, hblock⟩]
      refine next_of_opening hs hnone hcode hdrop (by decide) rfl ?_
      rw [hpart, hcode, hblock.1]
      simp [Part.step, Scan.part, slash, quote, star]
    rw [if_neg (fun h => hblock h.2), if_neg (fun h => by cases h.1), if_neg (fun h => by cases h.1),
      if_neg (fun h => by cases h.1)]
    have hnext := next_of_out hs hnone hdrop false (by
      rw [hpart, hcode, hrun]
      simp only [Part.step, hc, false_and, if_false, hline, hblock, Bool.false_eq_true])
    rw [← hcode] at hnext
    exact hnext

/-- A byte of a comment is passed over. -/
theorem next_of_pass (hs : s.Valid content) (hcomment : s.insideComment ≠ .none)
    (hdrop : content.drop s.ch = c :: rest)
    (hstep : (s.part content).step byTwo c (rest.headD 0) =
      ([], ({ s with ch := s.ch + 1 } : Scan).part content)) :
    s.Next content { s with ch := s.ch + 1 } where
  valid := ⟨Nat.le_succ_of_le hs.offset_le, lt_length hdrop, hs.comment, hs.fed,
    fun h => Nat.lt_succ_of_lt (hs.line h)⟩
  ch_lt := Nat.lt_succ_self _
  expected := by
    rw [expected_comment (s := { s with ch := s.ch + 1 }) hcomment, expected_comment hcomment,
      hdrop, strip, hstep]
    simp only [drop_succ hdrop, List.nil_append]

theorem between_one (h : content.drop i = c :: rest) : between content i (i + 1) = [c] := by
  rw [between_succ h le_rfl, between_self, List.nil_append]

theorem between_two {d : UInt8} (h : content.drop i = c :: d :: rest) :
    between content i (i + 2) = [c, d] := by
  rw [between_succ (drop_succ h) (Nat.le_succ i), between_one h]
  rfl

/-- A comment of one line ends before the end of its line. -/
theorem next_line (hs : s.Valid content) (hline : s.insideComment = .singleLine)
    (hdrop : content.drop s.ch = c :: rest) :
    s.Next content (advance content s c (rest.headD 0)) := by
  have hcomment : s.insideComment ≠ .none := by rw [hline]; decide
  have hcode := hs.comment hcomment
  have hpart : s.part content = .line := by rw [Scan.part, hline]
  have hfeed := feedComment_eq hs.offset_le
  rw [if_pos (hs.line hline), hcode] at hfeed
  have hfed : s.result ++ [space] ≠ [] := List.append_ne_nil_of_right_ne_nil _ (by decide)
  unfold advance
  simp only [hline, hcode, hfeed]
  rw [if_neg (by decide), if_neg (fun h => by cases h.1)]
  by_cases hcr : c = cr ∧ rest.headD 0 = lf
  · obtain ⟨rfl, hnext⟩ := hcr
    obtain ⟨rest', rfl⟩ := headD_eq (by decide) hnext
    rw [if_pos ⟨trivial, rfl, rfl⟩]
    refine ⟨⟨by simp, lt_length (drop_succ hdrop), fun h => absurd rfl h, .inr hfed, nofun⟩, ?_,
      by simp⟩
    have hrun := runBefore_succ_of_ne (drop_succ hdrop) (by decide)
    rw [expected_none rfl, expected_comment hcomment, hdrop, strip, strip, hpart,
      between_two hdrop]
    simp [Scan.part, Part.step, isLineEnd, drop_succ (drop_succ hdrop), hrun, lf, cr, quote,
      slash, Part.runAfter, backslash]
  rw [if_neg (fun h => hcr h.2)]
  by_cases hlf : c = lf
  · rw [if_pos ⟨trivial, hlf⟩]
    refine ⟨⟨by simp, lt_length hdrop, fun h => absurd rfl h, .inr hfed, nofun⟩, ?_, by simp⟩
    have hrun := runBefore_succ_of_ne hdrop (by rw [hlf]; decide)
    rw [expected_none rfl, expected_comment hcomment, hdrop, strip, hpart, between_one hdrop]
    simp [Scan.part, Part.step, isLineEnd, drop_succ hdrop, hrun, hlf]
  rw [if_neg (fun h => hlf h.2), if_neg (fun h => by cases h.1), if_neg (fun h => by cases h.1),
    if_neg (fun h => by cases h.1), if_neg (fun h => by cases h.1)]
  have hnot : ¬isLineEnd c (rest.headD 0) := fun h => h.elim hcr hlf
  have hnext := next_of_pass hs hcomment hdrop (by
    simp only [Part.step, if_neg hnot, Scan.part, hline])
  rw [hline, hcode] at hnext
  exact hnext

/-- A comment of several lines keeps their ends. -/
theorem next_block (hs : s.Valid content) (hblock : s.insideComment = .multiLine)
    (hdrop : content.drop s.ch = c :: rest) :
    s.Next content (advance content s c (rest.headD 0)) := by
  have hcomment : s.insideComment ≠ .none := by rw [hblock]; decide
  have hcode := hs.comment hcomment
  have hpart : s.part content = .block (s.offset < s.ch) := by rw [Scan.part, hblock]
  have hfeed := feedComment_eq hs.offset_le
  rw [hcode, hblock] at hfeed
  unfold advance
  simp only [hblock, hcode]
  rw [if_neg (by decide), if_neg (fun h => by cases h.1), if_neg (fun h => by cases h.1),
    if_neg (fun h => by cases h.1), if_neg (fun h => by cases h.1)]
  by_cases hstar : c = star ∧ rest.headD 0 = slash
  · obtain ⟨rfl, hnext⟩ := hstar
    obtain ⟨rest', rfl⟩ := headD_eq (by decide) hnext
    have hlt : s.offset < s.ch + 2 := Nat.lt_of_le_of_lt hs.offset_le (by omega)
    rw [if_pos ⟨trivial, rfl, rfl⟩, feedComment_eq hlt.le, if_pos hlt, hcode]
    refine ⟨⟨le_rfl, lt_length (drop_succ hdrop), fun h => absurd rfl h,
      .inr (List.append_ne_nil_of_right_ne_nil _ (by decide)), nofun⟩, ?_, by simp⟩
    have hrun := runBefore_succ_of_ne (drop_succ hdrop) (by decide)
    rw [expected_none rfl, expected_comment hcomment, hdrop, strip, strip, hpart, between_self]
    simp [Scan.part, Part.step, drop_succ (drop_succ hdrop), hrun]
  rw [if_neg (fun h => hstar h.2)]
  by_cases hcr : c = cr ∧ rest.headD 0 = lf
  · obtain ⟨rfl, hnext⟩ := hcr
    obtain ⟨rest', rfl⟩ := headD_eq (by decide) hnext
    rw [if_pos ⟨trivial, rfl, rfl⟩, hfeed, feedContent_eq (Nat.le_add_right _ 2), between_two hdrop]
    refine ⟨⟨le_rfl, lt_length (drop_succ hdrop), fun _ => rfl,
      .inr (List.append_ne_nil_of_right_ne_nil _ (by decide)), nofun⟩, ?_, by simp⟩
    refine (expected_block content _ _ _ _).trans ?_
    rw [expected_comment hcomment, hdrop, strip, strip, hpart]
    simp [Part.step, isLineEnd, drop_succ (drop_succ hdrop), lf, cr, star]
  rw [if_neg (fun h => hcr h.2)]
  by_cases hlf : c = lf
  · rw [if_pos ⟨trivial, hlf⟩, hfeed, feedContent_eq (Nat.le_add_right _ 1), between_one hdrop]
    refine ⟨⟨le_rfl, lt_length hdrop, fun _ => rfl,
      .inr (List.append_ne_nil_of_right_ne_nil _ (List.cons_ne_nil _ _)), nofun⟩, ?_, by simp⟩
    refine (expected_block content _ _ _ _).trans ?_
    rw [expected_comment hcomment, hdrop, strip, hpart]
    simp [Part.step, isLineEnd, drop_succ hdrop, hlf, lf, star]
  rw [if_neg (fun h => hlf h.2)]
  have hnot : ¬isLineEnd c (rest.headD 0) := fun h => h.elim hcr hlf
  have hmore : s.offset < s.ch + 1 := Nat.lt_succ_of_le hs.offset_le
  have hnext := next_of_pass hs hcomment hdrop (by
    simp only [Part.step, if_neg hstar, if_neg hnot, Scan.part, hblock, hmore, decide_true])
  rw [hblock, hcode] at hnext
  exact hnext

/-- The text begins with a quote behind a backslash. -/
def opensEscaped (content : List UInt8) : Bool :=
  content.take 2 = [backslash, quote]

theorem not_first_escaped (hfree : ¬opensEscaped content) (hdrop : content.drop j = quote :: rest) :
    ¬(j = 1 ∧ content[0]? = some backslash) := by
  rintro ⟨rfl, hfirst⟩
  apply hfree
  cases content with
  | nil => cases hfirst
  | cons c content =>
    rw [List.drop_succ_cons, List.drop_zero] at hdrop
    rw [List.getElem?_cons_zero, Option.some.injEq] at hfirst
    rw [hdrop, hfirst]
    rfl

theorem next_quote (hs : s.Valid content) (hnone : s.insideComment = .none)
    (hdrop : content.drop s.ch = quote :: rest) (insideString : Bool)
    (hstring : insideString =
      if byTwo (runBefore content s.ch) then s.insideString else !s.insideString) :
    s.Next content (advance content { s with insideString := insideString } quote (rest.headD 0)) := by
  have hrun := runBefore_succ_of_ne hdrop (by decide)
  have hadvance : advance content { s with insideString := insideString } quote (rest.headD 0) =
      ⟨.none, insideString, s.result, s.offset, s.ch + 1⟩ := by
    simp [advance, hnone, quote, slash]
  rw [hadvance]
  refine next_of_out hs hnone hdrop insideString ?_
  rw [hrun, Scan.part, hnone, hstring]
  cases hbyTwo : byTwo (runBefore content s.ch)
  · simp [Part.step, hbyTwo]
  · cases hinside : s.insideString <;>
      simp [Part.step, hbyTwo, Part.runAfter, quote, slash, backslash]

theorem scanStep_next (hs : s.Valid content) (hfree : ¬opensEscaped content) :
    scanStep content s = .inl (some (s.expected content)) ∨
      ∃ t, scanStep content s = .inr t ∧ s.Next content t := by
  unfold scanStep
  cases hdrop : content.drop s.ch with
  | nil => exact .inl (by rw [finish_eq hs hdrop])
  | cons c rest =>
    refine .inr ?_
    dsimp only
    by_cases hquote : s.insideComment = .none ∧ c = quote
    · obtain ⟨hnone, rfl⟩ := hquote
      rw [if_pos ⟨hnone, rfl⟩,
        escaped_eq (lt_length hdrop) (not_first_escaped hfree hdrop)]
      cases hbyTwo : byTwo (runBefore content s.ch)
      · exact ⟨_, rfl, next_quote hs hnone hdrop _ (by rw [hbyTwo]; rfl)⟩
      · exact ⟨_, rfl, next_quote hs hnone hdrop s.insideString (by rw [hbyTwo]; rfl)⟩
    · rw [if_neg hquote]
      refine ⟨_, rfl, ?_⟩
      cases hcomment : s.insideComment with
      | none => exact next_none hs hcomment hdrop fun hc => hquote ⟨hcomment, hc⟩
      | singleLine => exact next_line hs hcomment hdrop
      | multiLine => exact next_block hs hcomment hdrop

theorem iterate_scanStep {n : Nat} (hs : s.Valid content) (hfree : ¬opensEscaped content)
    (hn : content.length - s.ch < n) :
    Loops.iterate (scanStep content) n s = some (some (s.expected content)) := by
  induction n generalizing s with
  | zero => omega
  | succ n ih =>
    rcases scanStep_next hs hfree with hdone | ⟨t, hagain, hnext⟩
    · exact Loops.iterate_of_done hdone
    · have hch := hnext.ch_lt
      have hle := hnext.valid.ch_le
      rw [Loops.iterate_of_again hagain, ih hnext.valid (by omega), hnext.expected]

/-- The code looks at two bytes before a quote, also where there is only one. -/
theorem stripComments_eq (content : List UInt8) : stripComments content =
    if opensEscaped content then none else some (strip byTwo (.code false 0) content) := by
  by_cases hfree : opensEscaped content
  · obtain ⟨rest, rfl⟩ : ∃ rest, content = backslash :: quote :: rest := by
      refine ⟨content.drop 2, ?_⟩
      have htake := of_decide_eq_true hfree
      rw [← List.take_append_drop 2 content, htake]
      rfl
    have hfirst : scanStep (backslash :: quote :: rest) ⟨.none, false, [], 0, 0⟩ =
        .inr ⟨.none, false, [], 0, 1⟩ := rfl
    have hsecond : scanStep (backslash :: quote :: rest) ⟨.none, false, [], 0, 1⟩ = .inl none := rfl
    rw [if_pos hfree, stripComments, List.length_cons, Loops.iterate_of_again hfirst,
      List.length_cons, Loops.iterate_of_done hsecond]
    rfl
  · have hstart : Scan.Valid content ⟨.none, false, [], 0, 0⟩ :=
      ⟨le_rfl, Nat.zero_le _, fun _ => rfl, .inl rfl, nofun⟩
    rw [if_neg hfree, stripComments, iterate_scanStep hstart hfree (by simp)]
    rfl

end Scanning

/-- Outside of comments a quote is taken for the end or the start of a string that is not: it has
an odd number of backslashes before it, and more than one. -/
def misjudged : Part → UInt8 → Bool
  | .code _ run, c => c = quote && byParity run && !byTwo run
  | _, _ => false

/-- A comment is opened by these two bytes. -/
def opensComment (c next : UInt8) : Prop := c = slash ∧ (next = slash ∨ next = star)

instance (c next : UInt8) : Decidable (opensComment c next) :=
  inferInstanceAs (Decidable (_ ∧ _))

/-- No comment is opened behind an odd number of misjudged quotes. -/
def agree : Bool → Part → List UInt8 → Bool
  | _, _, [] => true
  | off, part, c :: rest =>
    if off ∧ opensComment c (rest.headD 0) then false
    else agree (off ^^ misjudged part c) (part.step byParity c (rest.headD 0)).2 rest

section Agreement

variable {escaped : Nat → Bool} {content rest : List UInt8} {part part' : Part} {c : UInt8}
  {insideString more off : Bool} {run : Nat}

theorem head?_strip_line (content : List UInt8) : (strip escaped .line content).head? ≠ some slash := by
  induction content with
  | nil => exact nofun
  | cons c rest ih =>
    rw [strip, Part.step]
    split
    · exact fun h => absurd (Option.some.inj h) (by decide)
    · exact ih

theorem head?_strip_block (content : List UInt8) :
    (strip escaped (.block true) content).head? ≠ some slash := by
  induction content with
  | nil => exact nofun
  | cons c rest ih =>
    rw [strip, Part.step]
    split
    · exact fun h => absurd (Option.some.inj h) (by decide)
    split
    · exact fun h => absurd (Option.some.inj h) (by decide)
    · exact ih

/-- Inside of a string what opens a comment is kept. -/
theorem strip_string_opening (hopens : opensComment c (rest.headD 0)) (run : Nat) :
    (strip escaped (.code true run) (c :: rest)).head? = some slash := by
  have hne : ¬(c = quote ∧ escaped run = false) := by
    rw [hopens.1]
    exact fun h => absurd h.1 (by decide)
  rw [strip, Part.step, if_neg hne, if_pos rfl, hopens.1]
  rfl

theorem strip_code_opening (hopens : opensComment c (rest.headD 0)) (run : Nat) :
    (strip escaped (.code false run) (c :: rest)).head? ≠ some slash := by
  obtain ⟨rfl, hnext⟩ := hopens
  have hne : ¬(slash = quote ∧ escaped run = false) := fun h => absurd h.1 (by decide)
  rcases hnext with hnext | hnext
  · obtain ⟨rest, rfl⟩ := headD_eq (by decide) hnext
    rw [strip, Part.step, if_neg hne, if_neg Bool.false_ne_true, if_pos ⟨rfl, rfl⟩]
    exact head?_strip_line rest
  · obtain ⟨rest, rfl⟩ := headD_eq (by decide) hnext
    rw [strip, Part.step, if_neg hne, if_neg Bool.false_ne_true,
      if_neg (fun h => absurd (show star = slash from h.2) (by decide)), if_pos ⟨rfl, rfl⟩]
    exact head?_strip_block rest

theorem strip_opening_ne (hopens : opensComment c (rest.headD 0)) {escaped' : Nat → Bool} :
    strip escaped (.code insideString run) (c :: rest) ≠
      strip escaped' (.code (!insideString) run) (c :: rest) := by
  intro heq
  cases insideString
  · exact strip_code_opening hopens run (heq ▸ strip_string_opening hopens run)
  · exact strip_code_opening hopens run (heq ▸ strip_string_opening hopens run)

/-- The part that the code is in where the text is in `part`. -/
def Part.seen (off : Bool) : Part → Part
  | .code insideString run => .code (insideString ^^ off) run
  | part => part

theorem Part.seen_false (part : Part) : part.seen false = part := by
  cases part with
  | code insideString run => rw [Part.seen, Bool.xor_false]
  | line => rfl
  | block more => rfl
  | skip next => rfl

theorem byParity_of_byTwo (h : byTwo run) : byParity run := by
  rw [byTwo, decide_eq_true_eq] at h
  rw [h]
  rfl

/-- Both readings put out the same for one byte, and differ after it by the quotes misjudged. -/
theorem step_seen_code {next : UInt8} (hopen : ¬(off ∧ opensComment c next)) :
    ((Part.code insideString run).seen off).step byTwo c next =
      (((Part.code insideString run).step byParity c next).1,
        ((Part.code insideString run).step byParity c next).2.seen
          (off ^^ misjudged (.code insideString run) c)) := by
  by_cases hc : c = quote
  · have hslash : ¬quote = slash := by decide
    have hrun : Part.runAfter run quote = 0 := if_neg (by decide)
    cases hparity : byParity run
    · have htwo : byTwo run = false := by
        rw [Bool.eq_false_iff]
        intro h
        rw [byParity_of_byTwo h] at hparity
        cases hparity
      cases insideString <;> cases off <;>
        simp [Part.seen, Part.step, misjudged, hc, hparity, htwo]
    · cases htwo : byTwo run <;> cases insideString <;> cases off <;>
        simp [Part.seen, Part.step, misjudged, hc, hparity, htwo, hslash, hrun]
  · have hmisjudged : misjudged (.code insideString run) c = false := by simp [misjudged, hc]
    rw [hmisjudged, Bool.xor_false]
    cases off with
    | false =>
      rw [Part.seen_false, Part.seen_false]
      simp [Part.step, hc]
    | true =>
      have hclosed : ¬opensComment c next := fun h => hopen ⟨rfl, h⟩
      have hline : ¬(c = slash ∧ next = slash) := fun h => hclosed ⟨h.1, .inl h.2⟩
      have hblock : ¬(c = slash ∧ next = star) := fun h => hclosed ⟨h.1, .inr h.2⟩
      cases insideString <;> simp [Part.seen, Part.step, hc, hline, hblock]

theorem step_code_of_misjudged {next : UInt8} (hopen : ¬(off ∧ opensComment c next))
    (h : off ^^ misjudged (.code insideString run) c) :
    ∃ insideString' run', ((Part.code insideString run).step byParity c next).2 =
      .code insideString' run' := by
  rw [Part.step]
  split
  · exact ⟨_, _, rfl⟩
  rename_i hquote
  split
  · exact ⟨_, _, rfl⟩
  have hslash : c = slash → off = true := by
    rintro rfl
    have hnot : misjudged (.code insideString run) slash = false := by
      simp [misjudged, slash, quote]
    rw [hnot, Bool.xor_false] at h
    exact h
  split
  · rename_i hline
    exact absurd ⟨hslash hline.1, hline.1, .inl hline.2⟩ hopen
  split
  · rename_i hblock
    exact absurd ⟨hslash hblock.1, hblock.1, .inr hblock.2⟩ hopen
  · exact ⟨_, _, rfl⟩

theorem strip_agree (off : Bool) (part : Part) (content : List UInt8)
    (hoff : off → ∃ insideString run, part = .code insideString run) :
    strip byParity part content = strip byTwo (part.seen off) content ↔ agree off part content := by
  induction content generalizing off part with
  | nil => exact iff_of_true rfl rfl
  | cons c rest ih =>
    by_cases hopen : off ∧ opensComment c (rest.headD 0)
    · obtain ⟨insideString, run, rfl⟩ := hoff hopen.1
      rw [agree, if_pos hopen]
      refine iff_of_false ?_ Bool.false_ne_true
      rw [hopen.1, Part.seen, Bool.xor_true]
      exact strip_opening_ne hopen.2
    · rw [agree, if_neg hopen]
      have hother : off = false ∧ misjudged part c = false → (∀ next,
          part.step byTwo c next = part.step byParity c next) →
          (strip byParity part (c :: rest) = strip byTwo (part.seen off) (c :: rest) ↔
            agree (off ^^ misjudged part c) (part.step byParity c (rest.headD 0)).2 rest) := by
        rintro ⟨rfl, hmisjudged⟩ hsame
        have hrest := ih false (part.step byParity c (rest.headD 0)).2 nofun
        rw [Part.seen_false] at hrest
        rw [hmisjudged, Bool.xor_false, ← hrest, Part.seen_false, strip, strip, hsame,
          List.append_cancel_left_eq]
      cases part with
      | code insideString run =>
        rw [← ih _ _ (step_code_of_misjudged hopen), strip, strip, step_seen_code hopen,
          List.append_cancel_left_eq]
      | line =>
        cases off with
        | false => exact hother ⟨rfl, rfl⟩ fun _ => rfl
        | true =>
          obtain ⟨_, _, h⟩ := hoff rfl
          cases h
      | block more =>
        cases off with
        | false => exact hother ⟨rfl, rfl⟩ fun _ => rfl
        | true =>
          obtain ⟨_, _, h⟩ := hoff rfl
          cases h
      | skip next =>
        cases off with
        | false => exact hother ⟨rfl, rfl⟩ fun _ => rfl
        | true =>
          obtain ⟨_, _, h⟩ := hoff rfl
          cases h

end Agreement

/-- The comments are taken out and no byte before the text is read exactly if the text does not
begin with an escaped quote, and no comment is opened behind an odd number of misjudged quotes. -/
theorem stripComments_eq_stripped_iff (content : List UInt8) :
    stripComments content = some (stripped content) ↔
      ¬opensEscaped content ∧ agree false (.code false 0) content := by
  have hagree := strip_agree false (.code false 0) content nofun
  rw [Part.seen_false] at hagree
  rw [stripComments_eq, ← hagree, stripped]
  by_cases hfree : opensEscaped content
  · simp [hfree]
  · rw [if_neg hfree, Option.some.injEq, and_iff_right hfree]
    exact eq_comm

/-- A string of two backslashes, a quote and two slashes: its end is lost. -/
theorem stripComments_tears_string :
    let content := [quote, backslash, backslash, backslash, quote, slash, slash, quote]
    stripComments content = some [quote, backslash, backslash, backslash, quote] ∧
      stripped content = content := by
  decide

end TelegramClient.Base.Parse
