import TelegramClient.Text.LinksMerged

/-! For which texts the loop of `ParseEntities` ends, whatever the regular expressions match. -/

namespace TelegramClient.Text

open Lang (textCommand)

/-- A character that starts commands and that the loop takes for the start of a link. -/
def StartsLink (text : List QChar) (c : Nat) : Prop :=
  text[c]? = some textCommand ∧ textcmdStartsLink text c = true

/-- The command at a position is complete. -/
def Complete (text : List QChar) (c : Nat) : Prop := 0 < textSkipCommand true (text.drop c)

/-- Links start in one place at most, with a complete command at the start of the text or right
behind another character that starts commands. -/
def Harmless (text : List QChar) : Prop :=
  ∀ c, StartsLink text c → Complete text c ∧ (c = 0 ∨ text[c - 1]? = some textCommand) ∧
    ∀ c', StartsLink text c' → c' = c

variable {g : LinkSyntax} {flags : ParseFlags} {text : List QChar} {position q : Nat}
  {r s t : Scan}

/-! ## Commands -/

theorem nextCommand_le (h : position ≤ text.length) : nextCommand text position ≤ text.length := by
  have hle := @List.findIdx_le_length _ (· == textCommand) (text.drop position)
  rw [List.length_drop] at hle
  rw [nextCommand]
  omega

theorem getElem?_nextCommand (h : nextCommand text position < text.length) :
    text[nextCommand text position]? = some textCommand := by
  have hlt : (text.drop position).findIdx (· == textCommand) < (text.drop position).length := by
    rw [List.length_drop]
    rw [nextCommand] at h
    omega
  have hfound := List.findIdx_getElem (w := hlt)
  rw [nextCommand, ← List.getElem?_drop, List.getElem?_eq_getElem hlt]
  exact congrArg some (eq_of_beq hfound)

theorem nextCommand_minimal (hle : position ≤ q) (hlt : q < nextCommand text position) :
    text[q]? ≠ some textCommand := by
  intro hq
  have hfirst : q - position < (text.drop position).findIdx (· == textCommand) := by
    rw [nextCommand] at hlt
    omega
  have hnot := List.not_of_lt_findIdx hfirst
  rw [List.getElem_drop] at hnot
  obtain ⟨hlen, heq⟩ := List.getElem?_eq_some_iff.mp hq
  simp only [show position + (q - position) = q by omega, heq] at hnot
  simp at hnot

theorem nextCommand_eq (hle : position ≤ q) (hq : text[q]? = some textCommand)
    (hnone : ∀ c, position ≤ c → c < q → text[c]? ≠ some textCommand) :
    nextCommand text position = q := by
  rcases Nat.lt_trichotomy (nextCommand text position) q with hlt | heq | hgt
  · have hlen := (List.getElem?_eq_some_iff.mp hq).1
    exact absurd (getElem?_nextCommand (by omega)) (hnone _ (le_nextCommand text position) hlt)
  · exact heq
  · exact absurd hq (nextCommand_minimal hle hgt)

/-- What the loop knows of the command it looks at. -/
def Scan.Knows (text : List QChar) (s : Scan) : Prop :=
  s.commandOffset < text.length → text[s.commandOffset]? = some textCommand ∧
    s.commandIsLink = textcmdStartsLink text s.commandOffset

theorem startsLink_of_knows (h : s.Knows text) (hlt : s.commandOffset < text.length)
    (hlink : s.commandIsLink) : StartsLink text s.commandOffset := by
  obtain ⟨hchar, hstarts⟩ := h hlt
  exact ⟨hchar, by rw [← hstarts, hlink]⟩

/-- How commands are skipped in front of a tag: none, up to another one, or up to the end of the
one the tag is in. -/
inductive Skipped (text : List QChar) (tagStart : Nat) (s : Scan) : Bool × Scan → Prop
  | none (hend : s.commandOffset < text.length → s.commandOffset < tagStart →
      ¬ Complete text s.commandOffset) : Skipped text tagStart s (false, s)
  | moved (c commandEnd : Nat) (t : Scan) (hc : s.commandOffset ≤ c) (hlt : c < commandEnd)
      (hle : commandEnd ≤ tagStart) (hlen : commandEnd ≤ text.length)
      (hchar : text[c]? = some textCommand)
      (hnext : t.commandOffset = nextCommand text commandEnd)
      (hlink : t.inLink = textcmdStartsLink text c) (hknows : t.Knows text)
      (hend : t.commandOffset < text.length → t.commandOffset < tagStart →
        ¬ Complete text t.commandOffset) : Skipped text tagStart s (false, t)
  | inside (c : Nat) (t : Scan) (hc : s.commandOffset ≤ c) (hlt : c < t.commandOffset)
      (hlen : t.commandOffset ≤ text.length) (hchar : text[c]? = some textCommand)
      (hlink : t.commandIsLink = textcmdStartsLink text c) : Skipped text tagStart s (true, t)

theorem checkTagStartInCommand_skipped (tagStart : Nat) (h : s.Knows text) :
    Skipped text tagStart s (checkTagStartInCommand text tagStart s) := by
  induction hk : text.length - s.commandOffset using Nat.strong_induction_on generalizing s with
  | _ k ih =>
    rw [checkTagStartInCommand]
    split
    next hmore =>
      obtain ⟨hchar, hstarts⟩ := h hmore.1
      dsimp only
      split
      next hskip =>
        have hskipLe := @textSkipCommand_le true (text.drop s.commandOffset)
        rw [List.length_drop] at hskipLe
        split
        · refine .inside s.commandOffset _ le_rfl ?_ ?_ hchar hstarts
          · dsimp only
            omega
          · dsimp only
            omega
        next hout =>
          have hnext := le_nextCommand text
            (s.commandOffset + textSkipCommand true (text.drop s.commandOffset))
          have hstep := @ih (text.length - nextCommand text
              (s.commandOffset + textSkipCommand true (text.drop s.commandOffset))) (by omega)
            { s with
              commandOffset := nextCommand text
                (s.commandOffset + textSkipCommand true (text.drop s.commandOffset))
              inLink := s.commandIsLink
              commandIsLink :=
                if nextCommand text
                    (s.commandOffset + textSkipCommand true (text.drop s.commandOffset)) <
                    text.length then
                  textcmdStartsLink text (nextCommand text
                    (s.commandOffset + textSkipCommand true (text.drop s.commandOffset)))
                else false }
            (by
              intro hlt
              dsimp only at hlt ⊢
              exact ⟨getElem?_nextCommand hlt, if_pos hlt⟩)
            rfl
          generalize checkTagStartInCommand text tagStart _ = result at hstep ⊢
          cases hstep with
          | none hend =>
            refine .moved s.commandOffset _ _ le_rfl (Nat.lt_add_of_pos_right hskip) (by omega)
              (by omega) hchar rfl hstarts ?_ hend
            intro hlt
            dsimp only at hlt ⊢
            exact ⟨getElem?_nextCommand hlt, if_pos hlt⟩
          | moved c commandEnd t hc hlt hle hlen hchar' hnext' hlink hknows hend =>
            refine .moved c commandEnd t ?_ hlt hle hlen hchar' hnext' hlink hknows hend
            dsimp only at hc
            omega
          | inside c t hc hlt hlen hchar' hlink =>
            refine .inside c t ?_ hlt hlen hchar' hlink
            dsimp only at hc
            omega
      next hskip => exact .none fun _ _ => hskip
    next hmore => exact .none fun hlt hless => absurd ⟨hlt, hless⟩ hmore

/-! ## Harmless texts -/

/-- What is known when the next command was looked for: the round is not stuck at the start of a
link. -/
structure Ready (text : List QChar) (r : Scan) : Prop where
  offset : r.offset ≤ r.matchOffset
  command : r.offset ≤ r.commandOffset ∧ r.commandOffset ≤ text.length
  knows : r.Knows text
  here : r.inLink → r.commandOffset = r.offset → StartsLink text r.offset →
    r.offset < r.matchOffset
  ahead : r.offset < r.commandOffset → StartsLink text r.commandOffset →
    r.commandOffset < r.matchOffset

theorem Harmless.nextCommand_cases (h : Harmless text) (hlink : StartsLink text (nextCommand text position)) :
    nextCommand text position = position ∨ nextCommand text position = 0 := by
  obtain ⟨-, hfirst, -⟩ := h _ hlink
  cases hfirst with
  | inl hzero => exact .inr hzero
  | inr hbefore =>
    left
    by_contra hne
    have hle := le_nextCommand text position
    exact @nextCommand_minimal text position (nextCommand text position - 1) (by omega) (by omega)
      hbefore

theorem refresh_ready (h : Harmless text) (hlt : t.offset < text.length)
    (hoffset : t.offset ≤ t.matchOffset) (hlen : t.commandOffset ≤ text.length)
    (hknows : t.offset < t.commandOffset → t.Knows text)
    (hhere : t.commandOffset ≤ t.offset → t.commandIsLink → StartsLink text t.offset →
      t.offset < t.matchOffset)
    (hahead : t.offset < t.commandOffset → StartsLink text t.commandOffset →
      t.commandOffset < t.matchOffset) :
    Ready text (t.refresh text) := by
  have hnext := le_nextCommand text t.offset
  have hnextLe := nextCommand_le hlt.le
  rw [Scan.refresh]
  split
  next hle =>
    dsimp only
    split
    next hfound =>
      constructor
      · exact hoffset
      · exact ⟨hnext, hnextLe⟩
      · exact fun _ => ⟨getElem?_nextCommand hfound, rfl⟩
      · exact fun hlink _ hstarts => hhere hle hlink hstarts
      · intro hless hstarts
        dsimp only at hless hstarts
        cases h.nextCommand_cases hstarts with
        | inl hsame => omega
        | inr hzero => omega
    next hnone =>
      constructor
      · exact hoffset
      · exact ⟨hnext, hnextLe⟩
      · exact fun hless => absurd hless hnone
      · intro _ hsame
        dsimp only at hsame
        omega
      · intro _ hstarts
        exact absurd (List.getElem?_eq_some_iff.mp hstarts.1).1 hnone
  next hless =>
    exact ⟨hoffset, ⟨by omega, hlen⟩, hknows (by omega), fun _ hsame => by omega, hahead⟩

/-! ## Rounds in harmless texts -/

/-- Whether a round may get back to its own offset. -/
def Scan.repeats (text : List QChar) (r : Scan) : Bool :=
  r.inLink && r.commandOffset == r.offset && !textcmdStartsLink text r.offset

/-- What gets smaller: the rest of the text, whether the offset may be repeated, and the rest that
was not matched. -/
def Scan.rest (text : List QChar) (r : Scan) : Nat × Nat × Nat :=
  (text.length - r.offset, (r.repeats text).toNat, text.length - r.matchOffset)

/-- The order of what is left. -/
def Less : Nat × Nat × Nat → Nat × Nat × Nat → Prop :=
  Prod.Lex (· < ·) (Prod.Lex (· < ·) (· < ·))

theorem less_wellFounded : WellFounded Less :=
  Nat.lt_wfRel.wf.prod_lex (Nat.lt_wfRel.wf.prod_lex Nat.lt_wfRel.wf)

theorem less_of_offset (hlt : r.offset < text.length) (hoffset : r.offset < (t.refresh text).offset) :
    Less ((t.refresh text).rest text) (r.rest text) :=
  Prod.Lex.left _ _ (by omega)

theorem advance_ready (h : Harmless text) (hr : Ready text r) (hlt : t.offset < text.length)
    (hoffset : t.offset = t.matchOffset) (hmatch : r.matchOffset < t.offset)
    (hcommand : t.commandOffset = r.commandOffset ∧ t.commandIsLink = r.commandIsLink ∨
      t.Knows text ∧ t.commandOffset ≤ text.length ∧
        (StartsLink text t.commandOffset → t.commandOffset < t.offset)) :
    Ready text (t.refresh text) := by
  have hrOffset := hr.offset
  have hrCommand := hr.command
  -- the start of a link is behind the new offset in no case
  have hbehind : t.Knows text ∧ t.commandOffset ≤ text.length ∧
      (StartsLink text t.commandOffset → t.commandOffset < t.offset) := by
    rcases hcommand with ⟨hsame, hlink⟩ | hknown
    · refine ⟨?_, by omega, ?_⟩
      · intro hless
        rw [hsame, hlink]
        exact hr.knows (by omega)
      · intro hstarts
        rw [hsame] at hstarts ⊢
        by_cases hahead : r.offset < r.commandOffset
        · have hless := hr.ahead hahead hstarts
          omega
        · omega
    · exact hknown
  obtain ⟨hknows, hlen, hless⟩ := hbehind
  apply refresh_ready h hlt (by omega) hlen (fun _ => hknows)
  · intro hle hlink hstarts
    have hstarts' := startsLink_of_knows hknows (by omega) hlink
    have hsame := (h _ hstarts).2.2 _ hstarts'
    have hcontra := hless hstarts'
    omega
  · intro hahead hstarts
    have hcontra := hless hstarts
    omega

theorem refresh_not_repeats (hlt : t.commandOffset < text.length)
    (hoffset : t.offset = t.commandOffset) (hchar : text[t.commandOffset]? = some textCommand)
    (hlink : t.commandIsLink = textcmdStartsLink text t.commandOffset) :
    (t.refresh text).repeats text = false := by
  have hnext : nextCommand text t.offset = t.commandOffset := by
    rw [hoffset]
    exact nextCommand_eq le_rfl hchar fun c hle hless => by omega
  rw [Scan.refresh, if_pos hoffset.ge]
  dsimp only
  rw [hnext, if_pos hlt, Scan.repeats]
  dsimp only
  rw [hlink, hoffset]
  cases textcmdStartsLink text t.commandOffset <;> simp

/-- A round that gets to the next command, which does not start a link it knows of. -/
theorem jump_ready (h : Harmless text) (hlt : s.commandOffset < text.length)
    (hnot : s.commandIsLink → ¬ StartsLink text s.commandOffset) :
    Ready text (Scan.refresh text
      { s with offset := s.commandOffset, matchOffset := s.commandOffset }) := by
  apply refresh_ready (t := { s with offset := s.commandOffset, matchOffset := s.commandOffset }) h
    hlt le_rfl hlt.le
  · exact fun hless => absurd hless (Nat.lt_irrefl _)
  · exact fun _ hlink hstarts => absurd hstarts (hnot hlink)
  · exact fun hless => absurd hless (Nat.lt_irrefl _)

theorem blocked_ready (h : Harmless text) (hr : Ready text r) (hrlt : r.offset < text.length)
    {skip tagStart : Nat} {inCommand : Bool} (hstart : r.matchOffset ≤ tagStart)
    (hcheck : checkTagStartInCommand text tagStart { r with mentionSkip := skip } = (inCommand, s))
    (hblocked : inCommand || s.inLink) :
    (s.commandOffset < text.length → Ready text (Scan.refresh text
      { s with offset := s.commandOffset, matchOffset := s.commandOffset })) ∧
    Less ((Scan.refresh text
      { s with offset := s.commandOffset, matchOffset := s.commandOffset }).rest text)
      (r.rest text) := by
  have hskipped := checkTagStartInCommand_skipped (s := { r with mentionSkip := skip }) tagStart
    hr.knows
  rw [hcheck] at hskipped
  have hcommand := hr.command
  have hframe := @refresh_frame text
    { s with offset := s.commandOffset, matchOffset := s.commandOffset }
  have hadvance : r.offset < s.commandOffset → Less ((Scan.refresh text
      { s with offset := s.commandOffset, matchOffset := s.commandOffset }).rest text)
      (r.rest text) := by
    intro hless
    apply less_of_offset hrlt
    rw [hframe.1]
    exact hless
  cases hskipped with
  | none hend =>
    dsimp only at hend hframe hadvance ⊢
    have hinLink : r.inLink = true := by simpa using hblocked
    have hnot : ¬ StartsLink text r.commandOffset := by
      intro hstarts
      have hlen := (List.getElem?_eq_some_iff.mp hstarts.1).1
      have hless : r.commandOffset < tagStart := by
        by_cases hahead : r.offset < r.commandOffset
        · have hmatch := hr.ahead hahead hstarts
          omega
        · have hsame : r.commandOffset = r.offset := by omega
          have hmatch := hr.here hinLink hsame (hsame ▸ hstarts)
          omega
      exact hend hlen hless (h _ hstarts).1
    refine ⟨fun hlt => jump_ready (s := { r with mentionSkip := skip }) h hlt fun _ => hnot, ?_⟩
    by_cases hahead : r.offset < r.commandOffset
    · exact hadvance hahead
    · -- the offset is repeated, but not once more
      have hsame : r.commandOffset = r.offset := by omega
      obtain ⟨hchar, hlink⟩ := hr.knows (by omega)
      have hstarts : textcmdStartsLink text r.commandOffset = false := by
        by_contra htrue
        exact hnot ⟨hchar, by simpa using htrue⟩
      have hagain : r.repeats text = true := by
        rw [Scan.repeats, hinLink, hsame, ← hsame, hstarts]
        simp [hsame]
      have honce := @refresh_not_repeats text
        { r with
          mentionSkip := skip, offset := r.commandOffset, matchOffset := r.commandOffset }
        (by dsimp only; omega) rfl hchar hlink
      rw [Scan.rest, Scan.rest, hframe.1, honce, hagain, hsame]
      exact Prod.Lex.right _ (Prod.Lex.left _ _ (by decide))
  | moved c commandEnd _ hc hlt hle hlen hchar hnext hlink hknows hend =>
    dsimp only at hc
    have hnextLe := le_nextCommand text commandEnd
    have hstarts : StartsLink text c := by
      refine ⟨hchar, ?_⟩
      rw [← hlink]
      simpa using hblocked
    refine ⟨fun hlt' => jump_ready h hlt' ?_, hadvance (by omega)⟩
    intro _ hstarts'
    have hsame := (h _ hstarts).2.2 _ hstarts'
    omega
  | inside c _ hc hlt hlen hchar hlink =>
    dsimp only at hc
    refine ⟨fun hlt' => jump_ready h hlt' ?_, hadvance (by omega)⟩
    intro htrue hstarts'
    have hstarts : StartsLink text c := ⟨hchar, by rw [← hlink, htrue]⟩
    have hsame := (h _ hstarts').2.2 _ hstarts
    omega

/-- What is known of the command when a tag is not in one: if a link starts there it is not behind
the tag. -/
theorem passed_knows (h : Harmless text) (hr : Ready text r) {skip tagStart : Nat}
    (hcheck : checkTagStartInCommand text tagStart { r with mentionSkip := skip } = (false, s)) :
    s.commandOffset = r.commandOffset ∧ s.commandIsLink = r.commandIsLink ∨
      s.Knows text ∧ s.commandOffset ≤ text.length ∧ r.offset < s.commandOffset ∧
        (StartsLink text s.commandOffset → s.commandOffset ≤ tagStart) := by
  have hskipped := checkTagStartInCommand_skipped (s := { r with mentionSkip := skip }) tagStart
    hr.knows
  rw [hcheck] at hskipped
  have hcommand := hr.command
  cases hskipped with
  | none hend => exact .inl ⟨rfl, rfl⟩
  | moved c commandEnd _ hc hlt hle hlen hchar hnext hlink hknows hend =>
    dsimp only at hc
    have hnextLe := le_nextCommand text commandEnd
    refine .inr ⟨hknows, ?_, by omega, ?_⟩
    · rw [hnext]
      exact nextCommand_le hlen
    · intro hstarts
      rw [hnext] at hstarts ⊢
      cases h.nextCommand_cases hstarts with
      | inl hsame => omega
      | inr hzero => omega

theorem invalid_ready (h : Harmless text) (hr : Ready text r) (hrlt : r.offset < text.length)
    {skip tagStart end_ : Nat} (hstart : r.matchOffset ≤ tagStart) (hlt : tagStart < end_)
    (hend : end_ ≤ text.length)
    (hcheck : checkTagStartInCommand text tagStart { r with mentionSkip := skip } = (false, s)) :
    (s.offset < text.length → Ready text (Scan.refresh text { s with matchOffset := end_ })) ∧
      Less ((Scan.refresh text { s with matchOffset := end_ }).rest text) (r.rest text) := by
  have hoffset : s.offset = r.offset := by
    have hframe := @checkTagStartInCommand_frame text tagStart { r with mentionSkip := skip }
    rw [hcheck] at hframe
    exact hframe.1
  have hrOffset := hr.offset
  have hcommand := hr.command
  have hpassed := passed_knows h hr hcheck
  have hknows : s.Knows text ∧ s.commandOffset ≤ text.length ∧
      (r.offset < s.commandOffset → StartsLink text s.commandOffset → s.commandOffset < end_) := by
    rcases hpassed with ⟨hsame, hlink⟩ | ⟨hknown, hlen, -, hstarts⟩
    · refine ⟨?_, by omega, ?_⟩
      · intro hless
        rw [hsame, hlink]
        exact hr.knows (by omega)
      · intro hless hstarts
        rw [hsame] at hless hstarts ⊢
        have hmatch := hr.ahead hless hstarts
        omega
    · refine ⟨hknown, hlen, ?_⟩
      intro _ hlink
      have hle := hstarts hlink
      omega
  obtain ⟨hknown, hlen, hstarts⟩ := hknows
  constructor
  · intro hslt
    apply refresh_ready (t := { s with matchOffset := end_ }) h hslt
    · dsimp only
      omega
    · exact hlen
    · exact fun _ => hknown
    · intro _ _ _
      dsimp only
      omega
    · intro hless hlink
      exact hstarts (hoffset ▸ hless) hlink
  · have honce : (Scan.refresh text { s with matchOffset := end_ }).repeats text = false := by
      by_cases hle : s.commandOffset ≤ s.offset
      · have hsame : s.offset = s.commandOffset := by
          rcases hpassed with ⟨hsame, -⟩ | ⟨-, -, hless, -⟩ <;> omega
        obtain ⟨hchar, hlink⟩ := hknown (by omega)
        exact refresh_not_repeats (t := { s with matchOffset := end_ }) (by dsimp only; omega) hsame
          hchar hlink
      · have hne : (s.commandOffset == s.offset) = false := by simpa using by omega
        rw [Scan.refresh, if_neg hle, Scan.repeats]
        dsimp only
        rw [hne, Bool.and_false, Bool.false_and]
    have hframe := @refresh_frame text { s with matchOffset := end_ }
    rw [Scan.rest, Scan.rest, hframe.1, hframe.2, honce]
    dsimp only
    rw [hoffset]
    apply Prod.Lex.right
    cases r.repeats text with
    | false => exact Prod.Lex.right _ (by omega)
    | true => exact Prod.Lex.left _ _ (by decide)

theorem scanStep_ready (h : Harmless text) (hr : Ready text r) (hrlt : r.offset < text.length)
    {link : Option EntityInText} (hstep : ScanStep text r t link) :
    (t.offset < text.length → Ready text (t.refresh text)) ∧
      Less ((t.refresh text).rest text) (r.rest text) := by
  have hrOffset := hr.offset
  cases hstep with
  | ignored skip end_ hlt hend =>
    constructor
    · intro htlt
      exact advance_ready h hr htlt rfl hlt (.inl ⟨rfl, rfl⟩)
    · apply less_of_offset hrlt
      rw [refresh_frame _ |>.1]
      dsimp only
      omega
  | blocked skip tagStart inCommand s hstart hlt hcheck hblocked =>
    exact blocked_ready h hr hrlt hstart hcheck hblocked
  | invalid skip tagStart end_ s hstart hlt hend hcheck hlink =>
    exact @invalid_ready text r s h hr hrlt skip tagStart end_ hstart hlt hend hcheck
  | found skip tagStart end_ s link hstart hlt hend hcheck hlink hoffset hlength hlinkEnd =>
    constructor
    · intro htlt
      apply advance_ready h hr htlt rfl (by dsimp only; omega)
      rcases passed_knows h hr hcheck with hsame | ⟨hknows, hlen, hless, hstarts⟩
      · exact .inl hsame
      · refine .inr ⟨hknows, hlen, ?_⟩
        intro hlink
        have hle := hstarts hlink
        dsimp only at hle ⊢
        omega
    · apply less_of_offset hrlt
      rw [refresh_frame _ |>.1]
      dsimp only
      omega

/-- The loop ends in a harmless text, and in any text that is not rich. -/
theorem parseEntities_ends (hg : g.Valid text) {rich : Bool} (h : rich = true → Harmless text)
    (entities : List EntityInText) :
    ∃ n result, parseEntities g flags rich n ⟨text, entities⟩ = some result := by
  cases rich with
  | false =>
    obtain ⟨n, links, hrun, -, -⟩ := recognizedLinks_spec hg flags
    exact ⟨n, _, (parseEntities_eq n ⟨text, entities⟩).trans (congrArg (Option.map _) hrun)⟩
  | true =>
    have hharmless := h rfl
    have hstart : (startScan text true).offset < text.length →
        Ready text ((startScan text true).refresh text) := by
      intro hlt
      apply refresh_ready hharmless hlt le_rfl (Nat.zero_le _)
      · exact fun hless => absurd hless (Nat.lt_irrefl _)
      · intro _ hlink
        cases hlink
      · exact fun hless => absurd hless (Nat.lt_irrefl _)
    obtain ⟨n, m, hrun⟩ := Loops.exists_iterate
      (I := fun s : Scan × Merged => s.1.offset < text.length → Ready text (s.1.refresh text))
      (parseStep g flags text entities.length) less_wellFounded
      (fun s => (s.1.refresh text).rest text)
      (fun s t hs hstep => by
        rw [parseStep] at hstep
        split at hstep
        next hlt =>
          split at hstep
          · cases hstep
          next scan link hnext =>
            cases hstep
            have hready := hs hlt
            have hframe := @refresh_frame text s.1
            have hoffset := hready.offset
            exact scanStep_ready hharmless hready (by omega)
              (nextLink_spec hg (by omega) hnext)
        · cases hstep)
      (s := (startScan text true, ⟨0, 0, entities, []⟩)) hstart
    exact ⟨n, _, congrArg (Option.map _) hrun⟩

end TelegramClient.Text
