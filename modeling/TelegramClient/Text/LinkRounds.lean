import TelegramClient.Text.Links

/-! What a round of the loop of `ParseEntities` does. -/

namespace TelegramClient.Text

open Lang (textCommand)

/-- A match in a text of some size from an offset on, which is not empty. -/
def Match.Inside (m : Match) (offset size : Nat) : Prop :=
  offset ≤ m.capturedStart ∧ m.capturedStart < m.capturedEnd ∧ m.capturedEnd ≤ size

/-- A match which is not empty between its separators. -/
def Match.TagInside (m : Match) (last offset size : Nat) : Prop :=
  offset ≤ m.capturedStart ∧ (m.tag last).1 < (m.tag last).2 ∧ m.capturedEnd ≤ size

/-- Matches are not empty and start at the requested offset or behind it. -/
structure LinkSyntax.Valid (g : LinkSyntax) (text : List QChar) : Prop where
  domain : ∀ offset m, g.domain text offset = some m → m.Inside offset text.length
  domainExplicit : ∀ offset m, g.domainExplicit text offset = some m → m.Inside offset text.length
  hashtag : ∀ offset m, g.hashtag text offset = some m → m.TagInside 2 offset text.length
  mention : ∀ offset m, g.mention text offset = some m → m.TagInside 2 offset text.length
  botCommand : ∀ offset m, g.botCommand text offset = some m → m.TagInside 3 offset text.length
  mailNameAtEnd : ∀ name m, g.mailNameAtEnd name = some m → m.Inside 0 name.length

/-- A part of a text of some size from an offset on, which is not empty. -/
def PartInside (offset size : Nat) (part : Nat × Nat) : Prop :=
  offset ≤ part.1 ∧ part.1 < part.2 ∧ part.2 ≤ size

/-- A syntax with hashtags and domains of no known top domain only. -/
def tagSyntax (domain hashtag : List QChar → Nat → Option Match) : LinkSyntax where
  isSpace ch := ch = 0x20
  isMarkNonSpacing _ := false
  isMac := false
  isElCapitan := false
  isSnowLeopard := false
  domain := domain
  domainExplicit _ _ := none
  hashtag := hashtag
  hashtagExclude _ := false
  mention _ _ := none
  botCommand _ _ := none
  mailNameAtEnd _ := none
  isValidProtocol _ := false
  isValidTopDomain _ := false
  toLower := id
  isLetter _ := true
  isLetterOrNumber _ := true

variable {g : LinkSyntax} {flags : ParseFlags} {text : List QChar} {m : Match}
  {last offset size n p : Nat} {s : Scan}

theorem Match.TagInside.part (h : m.TagInside last offset size) :
    PartInside offset size (m.tag last) := by
  obtain ⟨hoffset, hlt, hend⟩ := h
  refine ⟨?_, hlt, ?_⟩
  · rw [Match.tag]
    dsimp only
    split <;> omega
  · rw [Match.tag]
    dsimp only
    split <;> omega

theorem tagSyntax_valid {domain hashtag : List QChar → Nat → Option Match}
    (hdomain : ∀ offset m, domain text offset = some m → m.Inside offset text.length)
    (hhashtag : ∀ offset m, hashtag text offset = some m → m.TagInside 2 offset text.length) :
    (tagSyntax domain hashtag).Valid text where
  domain := hdomain
  domainExplicit _ _ h := by cases h
  hashtag := hhashtag
  mention _ _ h := by cases h
  botCommand _ _ h := by cases h
  mailNameAtEnd _ _ h := by cases h

/-! ## Candidates -/

/-- Mentions are skipped until there is one of letters or no other one. -/
theorem mentionStep_again {matchOffset : Nat} (h : g.Valid text) {a b : Match × Nat}
    (hstep : mentionStep g text matchOffset a = .inr b) :
    b.1.TagInside 2 matchOffset text.length ∧ (a.1.tag 2).2 < (b.1.tag 2).2 := by
  rw [mentionStep] at hstep
  dsimp only at hstep
  split at hstep
  · split at hstep
    next m hm =>
      cases hstep
      have hinside := h.mention _ m hm
      have hpart := hinside.part
      refine ⟨⟨(le_max_right _ _).trans hinside.1, hinside.2⟩, ?_⟩
      · obtain ⟨hoffset, hlt, -⟩ := hpart
        show (a.1.tag 2).2 < (m.tag 2).2
        omega
    · cases hstep
  · cases hstep

theorem mentionStep_done {matchOffset : Nat} {a : Match × Nat} {r : Bool × (Nat × Nat) × Nat}
    (ha : a.1.TagInside 2 matchOffset text.length)
    (hstep : mentionStep g text matchOffset a = .inl r) :
    PartInside matchOffset text.length r.2.1 := by
  rw [mentionStep] at hstep
  dsimp only at hstep
  split at hstep
  · split at hstep
    · cases hstep
    · cases hstep
      exact ha.part
  · cases hstep
    exact ha.part

theorem findMention_spec (h : g.Valid text) (flags : ParseFlags) (s : Scan) :
    ∃ mention ignore skip, findMention g flags text s = some (mention, ignore, skip) ∧
      ∀ part, mention = some part → PartInside s.matchOffset text.length part := by
  rw [findMention]
  cases hm : (if flags.withMentions then g.mention text (max s.mentionSkip s.matchOffset)
    else none) with
  | none => exact ⟨none, false, s.mentionSkip, rfl, by simp⟩
  | some m =>
    have hinside : m.TagInside 2 s.matchOffset text.length := by
      split at hm
      · obtain ⟨hoffset, hrest⟩ := h.mention _ m hm
        exact ⟨by omega, hrest⟩
      · cases hm
    obtain ⟨r, hrun⟩ := Loops.exists_iterate_le (n := text.length + 1) (s := (m, s.mentionSkip))
      (I := fun a : Match × Nat => a.1.TagInside 2 s.matchOffset text.length)
      (mentionStep g text s.matchOffset)
      (fun a : Match × Nat => text.length - (a.1.tag 2).2)
      (fun a b _ hstep => by
        obtain ⟨hb, hlt⟩ := mentionStep_again h hstep
        have hend := hb.part.2.2
        exact ⟨hb, by omega⟩)
      hinside (by omega)
    have hpart := Loops.iterate_rule (I := fun a : Match × Nat =>
        a.1.TagInside 2 s.matchOffset text.length)
      (Q := fun r : Bool × (Nat × Nat) × Nat => PartInside s.matchOffset text.length r.2.1)
      (fun a b _ hstep => (mentionStep_again h hstep).1)
      (fun a r ha hstep => mentionStep_done ha hstep) hinside hrun
    refine ⟨some r.2.1, r.1, r.2.2, ?_, ?_⟩
    · simp only [hrun]
      rfl
    · intro part hsome
      cases hsome
      exact hpart

/-- All that was found is in the text. -/
structure Candidates.Inside (c : Candidates) (offset size : Nat) : Prop where
  domain : ∀ m, c.domain = some m → m.Inside offset size
  hashtag : ∀ part, c.hashtag = some part → PartInside offset size part
  mention : ∀ part, c.mention = some part → PartInside offset size part
  botCommand : ∀ part, c.botCommand = some part → PartInside offset size part

theorem findDomain_inside (h : g.Valid text) (hm : findDomain g text offset = some m) :
    m.Inside offset text.length := by
  rw [findDomain] at hm
  split at hm
  · exact h.domainExplicit offset m hm
  · exact h.domain offset m hm

theorem findCandidates_spec (h : g.Valid text) (flags : ParseFlags) (s : Scan) :
    ∃ c skip, findCandidates g flags text s = some (c, skip) ∧
      c.Inside s.matchOffset text.length := by
  obtain ⟨mention, ignore, skip, hmention, hinside⟩ := findMention_spec h flags s
  rw [findCandidates, hmention]
  refine ⟨_, skip, rfl, ?_⟩
  constructor
  · intro m hm
    exact findDomain_inside h hm
  · intro part hpart
    obtain ⟨m, hm, rfl⟩ := Option.map_eq_some_iff.mp hpart
    split at hm
    · exact (h.hashtag _ m hm).part
    · cases hm
  · exact hinside
  · intro part hpart
    obtain ⟨m, hm, rfl⟩ := Option.map_eq_some_iff.mp hpart
    split at hm
    · exact (h.botCommand _ m hm).part
    · cases hm

/-- What was found is in the text. -/
def Found.Inside (offset size : Nat) : Found → Prop
  | .ignored end_ => offset < end_ ∧ end_ ≤ size
  | .tag _ start end_ => PartInside offset size (start, end_)
  | .domain m => m.Inside offset size

theorem isBefore_isSome {a b : Option Nat} (h : isBefore a b) : a.isSome := by
  cases a with
  | none => simp [isBefore] at h
  | some a => rfl

theorem isBefore_none {a : Option Nat} (h : ¬ isBefore a none) : a = none := by
  cases a with
  | none => rfl
  | some a => simp [isBefore] at h

theorem isSome_of_isBefore {α : Type*} {o : Option α} {f : α → Nat} {b : Option Nat}
    (h : isBefore (o.map f) b) : ∃ a, o = some a := by
  have hsome := isBefore_isSome h
  rw [Option.isSome_map] at hsome
  exact Option.isSome_iff_exists.mp hsome

theorem inside_of_part {part : Nat × Nat} {ignore : Bool} {type : EntityType}
    (h : PartInside offset size part) :
    (if ignore then Found.ignored part.2 else Found.tag type part.1 part.2).Inside offset size := by
  split
  · exact ⟨h.1.trans_lt h.2.1, h.2.2⟩
  · exact h

theorem Candidates.first_spec {c : Candidates} (h : c.Inside offset size) (hmatch : c.hasMatch) :
    ∃ found, c.first = some found ∧ found.Inside offset size := by
  rw [Candidates.first]
  dsimp only
  split
  next hmention =>
    rw [Bool.and_eq_true, Bool.and_eq_true] at hmention
    obtain ⟨part, hpart⟩ := isSome_of_isBefore hmention.1.1
    rw [hpart]
    exact ⟨_, rfl, inside_of_part (h.mention part hpart)⟩
  next hmention =>
    split
    next hhashtag =>
      rw [Bool.and_eq_true] at hhashtag
      obtain ⟨part, hpart⟩ := isSome_of_isBefore hhashtag.1
      rw [hpart]
      exact ⟨_, rfl, inside_of_part (h.hashtag part hpart)⟩
    next hhashtag =>
      split
      next hbot =>
        obtain ⟨part, hpart⟩ := isSome_of_isBefore hbot
        rw [hpart]
        exact ⟨_, rfl, h.botCommand part hpart⟩
      next hbot =>
        cases hdomain : c.domain with
        | some m => exact ⟨.domain m, rfl, h.domain m hdomain⟩
        | none =>
          -- nothing else was found, which was not ignored
          exfalso
          simp only [hdomain, Option.map_none] at hmention hhashtag hbot
          have hnobot := isBefore_none hbot
          simp only [hnobot, Bool.and_self, Bool.not_eq_true] at hhashtag hmention
          have hnohashtag := isBefore_none (Bool.eq_false_iff.mp hhashtag)
          simp only [hnohashtag, Bool.and_self] at hmention
          have hnomention := isBefore_none (Bool.eq_false_iff.mp hmention)
          rw [Option.map_eq_none_iff] at hnobot hnohashtag hnomention
          simp [Candidates.hasMatch, hdomain, hnobot, hnohashtag, hnomention] at hmatch

/-! ## Domains -/

theorem checkParenth_inl {ch : QChar} {parenth : List Nat} {q : Nat}
    (h : checkParenth text p ch parenth = .inl q) : q = p ∨ q ∈ parenth := by
  unfold checkParenth at h
  split_ifs at h
  cases parenth with
  | nil =>
    cases h
    exact .inl rfl
  | cons q' parenth =>
    dsimp only at h
    split at h
    · cases h
      exact .inr List.mem_cons_self
    · cases h

theorem checkParenth_inr {ch : QChar} {parenth rest : List Nat}
    (h : checkParenth text p ch parenth = .inr rest) : ∀ q ∈ rest, q = p ∨ q ∈ parenth := by
  unfold checkParenth at h
  split_ifs at h
  · cases h
    exact fun q => List.mem_cons.mp
  · cases parenth with
    | nil => cases h
    | cons q' parenth =>
      dsimp only at h
      split at h
      · cases h
      · cases h
        exact fun q hq => .inr (List.mem_cons_of_mem _ hq)
  · cases h
    exact fun q hq => .inr hq

theorem linkEnd_spec {parenth : List Nat} (hp : offset ≤ p) (hlen : p ≤ text.length)
    (hparenth : ∀ q ∈ parenth, offset ≤ q ∧ q ≤ text.length) :
    offset ≤ linkEnd g text p parenth ∧ linkEnd g text p parenth ≤ text.length := by
  induction hk : text.length - p using Nat.strong_induction_on generalizing p parenth with
  | _ k ih =>
    rw [linkEnd]
    split
    · exact ⟨hp, hlen⟩
    next ch hch =>
      have hlt := (List.getElem?_eq_some_iff.mp hch).1
      split
      · exact ⟨hp, hlen⟩
      · split
        · exact ⟨hp, hlen⟩
        next p' ch' hskip =>
          have hp' : p ≤ p' ∧ p' < text.length := by
            cases skipAlmostLinkEnd_ge g text hskip with
            | inl hsome => exact ⟨hsome.1, (List.getElem?_eq_some_iff.mp hsome.2).1⟩
            | inr hsame => omega
          split
          next q hq =>
            cases checkParenth_inl hq with
            | inl hsame => omega
            | inr hmem => exact hparenth q hmem
          next rest hrest =>
            refine ih _ (by omega) (by omega) (by omega) ?_ rfl
            intro q hq
            cases checkParenth_inr hrest q hq with
            | inl hsame => omega
            | inr hmem => exact hparenth q hmem

theorem domainLink_spec (h : g.Valid text) (offset : Nat) (hm : m.Inside p text.length)
    (hoffset : offset ≤ p) :
    domainLink g text offset m = .inl m.capturedEnd ∨
      ∃ type start end_, domainLink g text offset m = .inr (type, start, end_) ∧
        offset ≤ start ∧ start ≤ m.capturedStart ∧ m.capturedEnd ≤ end_ ∧ end_ ≤ text.length := by
  obtain ⟨hp, hlt, hend⟩ := hm
  rw [domainLink]
  dsimp only
  split
  next mail hmail =>
    right
    split at hmail
    · obtain ⟨-, hmailLt, hmailEnd⟩ := h.mailNameAtEnd _ mail hmail
      rw [List.length_take, List.length_drop] at hmailEnd
      exact ⟨_, _, _, rfl, by omega, by omega, by omega, hend⟩
    · cases hmail
  · split_ifs
    · exact .inl rfl
    · exact .inl rfl
    · have hlink := @linkEnd_spec g text m.capturedEnd m.capturedEnd [] le_rfl hend (by simp)
      exact .inr ⟨_, _, _, rfl, by omega, le_rfl, hlink.1, hlink.2⟩

/-! ## Rounds -/

theorem checkTagStartInCommand_frame (tagStart : Nat) (s : Scan) :
    (checkTagStartInCommand text tagStart s).2.offset = s.offset ∧
      (checkTagStartInCommand text tagStart s).2.matchOffset = s.matchOffset := by
  induction hk : text.length - s.commandOffset using Nat.strong_induction_on generalizing s with
  | _ k ih =>
    rw [checkTagStartInCommand]
    split
    · dsimp only
      split
      · split
        · exact ⟨rfl, rfl⟩
        · have hnext := le_nextCommand text
            (s.commandOffset + textSkipCommand true (text.drop s.commandOffset))
          refine ih _ ?_ _ rfl
          dsimp only
          omega
      · exact ⟨rfl, rfl⟩
    · exact ⟨rfl, rfl⟩

/-- What a round makes of the state at its start, when the next command was looked for. The text
matches at `tagStart`. -/
inductive ScanStep (text : List QChar) (r : Scan) : Scan → Option EntityInText → Prop
  | ignored (skip end_ : Nat) (hlt : r.matchOffset < end_) (hend : end_ ≤ text.length) :
      ScanStep text r
        { r with mentionSkip := skip, offset := end_, matchOffset := end_ } none
  | blocked (skip tagStart : Nat) (inCommand : Bool) (s : Scan) (hstart : r.matchOffset ≤ tagStart)
      (hlt : tagStart < text.length)
      (hcheck : checkTagStartInCommand text tagStart { r with mentionSkip := skip } =
        (inCommand, s)) (hblocked : inCommand || s.inLink) :
      ScanStep text r { s with offset := s.commandOffset, matchOffset := s.commandOffset } none
  | invalid (skip tagStart end_ : Nat) (s : Scan) (hstart : r.matchOffset ≤ tagStart)
      (hlt : tagStart < end_) (hend : end_ ≤ text.length)
      (hcheck : checkTagStartInCommand text tagStart { r with mentionSkip := skip } = (false, s))
      (hlink : s.inLink = false) : ScanStep text r { s with matchOffset := end_ } none
  | found (skip tagStart end_ : Nat) (s : Scan) (link : EntityInText)
      (hstart : r.matchOffset ≤ tagStart) (hlt : tagStart < end_) (hend : end_ ≤ text.length)
      (hcheck : checkTagStartInCommand text tagStart { r with mentionSkip := skip } = (false, s))
      (hlink : s.inLink = false) (hoffset : r.offset ≤ link.offset) (hlength : 0 < link.length)
      (hlinkEnd : link.offset + link.length = end_) :
      ScanStep text r { s with offset := end_, matchOffset := end_ } (some link)

/-- The next command, looked for at the start of a round, does not change the offsets. -/
theorem refresh_frame (s : Scan) :
    (s.refresh text).offset = s.offset ∧ (s.refresh text).matchOffset = s.matchOffset := by
  rw [Scan.refresh]
  dsimp only
  split_ifs <;> exact ⟨rfl, rfl⟩

theorem nextLink_spec (h : g.Valid text) {s t : Scan} {link : Option EntityInText}
    (hle : s.offset ≤ s.matchOffset) (hnext : nextLink g flags text s = some (t, link)) :
    ScanStep text (s.refresh text) t link := by
  have hframe := @refresh_frame text s
  rw [nextLink] at hnext
  generalize s.refresh text = r at hnext hframe ⊢
  obtain ⟨c, skip, hfind, hinside⟩ := findCandidates_spec h flags r
  simp only [hfind] at hnext
  split at hnext
  · cases hnext
  next hmatch =>
    rw [Bool.not_eq_true, Bool.not_eq_false'] at hmatch
    obtain ⟨found, hfirst, hfound⟩ := Candidates.first_spec hinside hmatch
    simp only [hfirst, Option.map_some, Option.some.injEq] at hnext
    cases found with
    | ignored end_ =>
      cases hnext
      exact .ignored skip end_ hfound.1 hfound.2
    | tag type start end_ =>
      obtain ⟨hstart, hlt, hend⟩ := hfound
      dsimp only at hnext hstart hlt hend
      have hcheckFrame := @checkTagStartInCommand_frame text start { r with mentionSkip := skip }
      cases hcheck : checkTagStartInCommand text start { r with mentionSkip := skip } with
      | mk inCommand u =>
        rw [hcheck] at hnext hcheckFrame
        dsimp only at hnext hcheckFrame
        split at hnext
        next hblocked =>
          cases hnext
          exact .blocked skip start inCommand u hstart (by omega) hcheck hblocked
        next hfree =>
          simp only [Bool.or_eq_true, not_or, Bool.not_eq_true] at hfree
          rw [hfree.1] at hcheck
          cases hnext
          refine .found skip start end_ u _ hstart hlt hend hcheck hfree.2 ?_ ?_ ?_
          · dsimp only
            omega
          · dsimp only
            omega
          · dsimp only
            omega
    | domain m =>
      have hm := hfound
      obtain ⟨hstart, hlt, hend⟩ := hfound
      dsimp only at hnext
      have hcheckFrame :=
        @checkTagStartInCommand_frame text m.capturedStart { r with mentionSkip := skip }
      cases hcheck : checkTagStartInCommand text m.capturedStart
          { r with mentionSkip := skip } with
      | mk inCommand u =>
        rw [hcheck] at hnext hcheckFrame
        dsimp only at hnext hcheckFrame
        split at hnext
        next hblocked =>
          cases hnext
          exact .blocked skip m.capturedStart inCommand u hstart (by omega) hcheck hblocked
        next hfree =>
          simp only [Bool.or_eq_true, not_or, Bool.not_eq_true] at hfree
          rw [hfree.1] at hcheck
          have hdomain := domainLink_spec h u.offset hm (by omega)
          cases hdomain with
          | inl hinvalid =>
            rw [hinvalid] at hnext
            cases hnext
            exact .invalid skip m.capturedStart m.capturedEnd u hstart hlt hend hcheck hfree.2
          | inr hvalid =>
            obtain ⟨type, start, end_, hlink, hoffset, hle, hge, hle'⟩ := hvalid
            rw [hlink] at hnext
            cases hnext
            refine .found skip m.capturedStart end_ u _ hstart (by omega) hle' hcheck hfree.2
              ?_ ?_ ?_
            · dsimp only
              omega
            · dsimp only
              omega
            · dsimp only
              omega

end TelegramClient.Text
