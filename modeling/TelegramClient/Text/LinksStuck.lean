import TelegramClient.Text.LinksTermination

/-! In other texts than harmless ones some regular expressions make the loop of `ParseEntities` run
forever. -/

namespace TelegramClient.Text

open Lang (textCommand)

variable {g : LinkSyntax} {flags : ParseFlags} {text : List QChar} {s t : Scan} {d o b : Nat}
  {domains hashtags : Nat → Option Nat}

/-! ## Matches that start where they are looked for -/

/-- A match from the offset on, without separators. -/
def matchTo (ends : Nat → Option Nat) (_ : List QChar) (offset : Nat) : Option Match :=
  (ends offset).map fun end_ => ⟨offset, end_, fun _ => []⟩

def hops (domains hashtags : Nat → Option Nat) : LinkSyntax :=
  tagSyntax (matchTo domains) (matchTo hashtags)

/-- The ends are behind the offsets and in the text. -/
def Forward (text : List QChar) (ends : Nat → Option Nat) : Prop :=
  ∀ o b, ends o = some b → o < b ∧ b ≤ text.length

theorem hops_valid (hdomains : Forward text domains) (hhashtags : Forward text hashtags) :
    (hops domains hashtags).Valid text := by
  apply tagSyntax_valid
  · intro offset m hm
    obtain ⟨end_, hend, rfl⟩ := Option.map_eq_some_iff.mp hm
    obtain ⟨hlt, hle⟩ := hdomains offset end_ hend
    exact ⟨le_rfl, hlt, hle⟩
  · intro offset m hm
    obtain ⟨end_, hend, rfl⟩ := Option.map_eq_some_iff.mp hm
    obtain ⟨hlt, hle⟩ := hhashtags offset end_ hend
    exact ⟨le_rfl, hlt, hle⟩

def hashtagFlags : ParseFlags := ⟨true, false, false⟩

theorem findCandidates_hops (r : Scan) :
    findCandidates (hops domains hashtags) hashtagFlags text r =
      some ({ domain := matchTo domains text r.matchOffset
              hashtag := (hashtags r.matchOffset).map fun end_ => (r.matchOffset, end_)
              hashtagIgnore := false
              mention := none
              mentionIgnore := false
              botCommand := none }, r.mentionSkip) := by
  cases hend : hashtags r.matchOffset <;>
    simp [findCandidates, findMention, findDomain, hops, tagSyntax, hashtagFlags, matchTo, hend,
      isBefore, Match.tag]

theorem nextLink_hashtag (hnone : domains (s.refresh text).matchOffset = none)
    (hsome : hashtags (s.refresh text).matchOffset = some b)
    (hcheck : checkTagStartInCommand text (s.refresh text).matchOffset (s.refresh text) =
      (false, s.refresh text)) :
    ∃ link, nextLink (hops domains hashtags) hashtagFlags text s =
      if (s.refresh text).inLink then
        some ({ s.refresh text with
          offset := (s.refresh text).commandOffset
          matchOffset := (s.refresh text).commandOffset }, none)
      else some ({ s.refresh text with offset := b, matchOffset := b }, some link) := by
  rw [nextLink]
  generalize s.refresh text = r at *
  refine ⟨⟨.hashtag, r.matchOffset, (b : Int) - r.matchOffset, []⟩, ?_⟩
  dsimp only
  rw [findCandidates_hops]
  obtain ⟨offset, matchOffset, mentionSkip, commandOffset, inLink, commandIsLink⟩ := r
  dsimp only at hnone hsome hcheck ⊢
  simp only [hsome, matchTo, hnone, Candidates.hasMatch, Candidates.first, Option.map_none,
    Option.map_some, isBefore]
  cases inLink <;> simp [hcheck]

theorem nextLink_domain (hnone : hashtags (s.refresh text).matchOffset = none)
    (hsome : domains (s.refresh text).matchOffset = some b)
    (hcheck : checkTagStartInCommand text (s.refresh text).matchOffset (s.refresh text) =
      (false, s.refresh text)) :
    nextLink (hops domains hashtags) hashtagFlags text s =
      if (s.refresh text).inLink then
        some ({ s.refresh text with
          offset := (s.refresh text).commandOffset
          matchOffset := (s.refresh text).commandOffset }, none)
      else some ({ s.refresh text with matchOffset := b }, none) := by
  rw [nextLink]
  generalize s.refresh text = r at *
  have hlink : domainLink (hops domains hashtags) text r.offset
      ⟨r.matchOffset, b, fun _ => []⟩ = .inl b := by
    simp [domainLink, hops, tagSyntax]
  dsimp only
  rw [findCandidates_hops]
  obtain ⟨offset, matchOffset, mentionSkip, commandOffset, inLink, commandIsLink⟩ := r
  dsimp only at hnone hsome hcheck hlink ⊢
  simp only [hsome, matchTo, hnone, Candidates.hasMatch, Candidates.first, Option.map_none,
    Option.map_some, isBefore]
  cases inLink <;> simp [hcheck, hlink]

/-! ## Runs that do not end -/

/-- The loop does not end from a state. -/
def Diverges (g : LinkSyntax) (flags : ParseFlags) (text : List QChar) (s : Scan) : Prop :=
  ∀ count n m, Loops.iterate (parseStep g flags text count) n (s, m) = none

theorem diverges_of_next {link : Option EntityInText} (hlt : s.offset < text.length)
    (hnext : nextLink g flags text s = some (t, link)) (ht : Diverges g flags text t) :
    Diverges g flags text s := by
  intro count n m
  have hstep : parseStep g flags text count (s, m) =
      .inr (t, link.elim m fun link => addLink count link m) := by
    rw [parseStep, if_pos hlt, hnext]
  exact Loops.iterate_none_of_again hstep (fun n => ht count n _) n

/-- At the start of a link, which the loop takes for a place inside it. -/
structure Stuck (d : Nat) (s : Scan) : Prop where
  offset : s.offset = d
  matchOffset : s.matchOffset = d
  commandOffset : s.commandOffset ≤ d
  commandIsLink : s.commandIsLink = true

theorem refresh_at {s : Scan} (hchar : text[s.offset]? = some textCommand)
    (hle : s.commandOffset ≤ s.offset) :
    s.refresh text =
      { s with
        commandOffset := s.offset
        inLink := s.commandIsLink
        commandIsLink := textcmdStartsLink text s.offset } := by
  have hlt := (List.getElem?_eq_some_iff.mp hchar).1
  have hnext : nextCommand text s.offset = s.offset :=
    nextCommand_eq le_rfl hchar fun c hc hless => by omega
  rw [Scan.refresh, if_pos hle]
  dsimp only
  rw [hnext, if_pos hlt]

theorem check_before {tagStart : Nat} (h : tagStart ≤ s.commandOffset) :
    checkTagStartInCommand text tagStart s = (false, s) := by
  rw [checkTagStartInCommand, if_neg (by omega)]

theorem check_incomplete {tagStart : Nat} (h : ¬ Complete text s.commandOffset) :
    checkTagStartInCommand text tagStart s = (false, s) := by
  rw [checkTagStartInCommand]
  split
  · exact if_neg h
  · rfl

theorem stuck_diverges (hd : StartsLink text d)
    (hmatch : (domains d).isSome ∧ hashtags d = none ∨ domains d = none ∧ (hashtags d).isSome)
    (hs : Stuck d s) : Diverges (hops domains hashtags) hashtagFlags text s := by
  have hlt := (List.getElem?_eq_some_iff.mp hd.1).1
  intro count n m
  refine Loops.iterate_none (I := fun s : Scan × Merged => Stuck d s.1) ?_
    (s := (s, m)) hs n
  rintro ⟨s, m⟩ hs
  obtain ⟨hoffset, hmatchOffset, hle, hlink⟩ := hs
  dsimp only at hoffset hmatchOffset hle hlink
  have hrefresh := refresh_at (s := s) (by rw [hoffset]; exact hd.1) (by omega)
  rw [hoffset, hlink, hd.2] at hrefresh
  have hcheck := @check_before text (s.refresh text) (s.refresh text).matchOffset
    (by rw [hrefresh]; exact hmatchOffset.le)
  have hnext : nextLink (hops domains hashtags) hashtagFlags text s =
      some ({ s.refresh text with
        offset := (s.refresh text).commandOffset
        matchOffset := (s.refresh text).commandOffset }, none) := by
    rcases hmatch with ⟨hsome, hnone⟩ | ⟨hnone, hsome⟩
    · obtain ⟨b, hb⟩ := Option.isSome_iff_exists.mp hsome
      rw [nextLink_domain (b := b) (by rw [hrefresh]; exact hmatchOffset ▸ hnone)
        (by rw [hrefresh]; exact hmatchOffset ▸ hb) hcheck, if_pos (by rw [hrefresh])]
    · obtain ⟨b, hb⟩ := Option.isSome_iff_exists.mp hsome
      obtain ⟨link, hlink⟩ := @nextLink_hashtag text s b domains hashtags
        (by rw [hrefresh]; exact hmatchOffset ▸ hnone)
        (by rw [hrefresh]; exact hmatchOffset ▸ hb) hcheck
      rw [hlink, if_pos (by rw [hrefresh])]
  rw [hrefresh] at hnext
  refine ⟨({ s with
    offset := d, matchOffset := d, commandOffset := d, inLink := true, commandIsLink := true }, m),
    ?_, ⟨rfl, rfl, le_rfl, rfl⟩⟩
  rw [parseStep, if_pos (by dsimp only; omega)]
  dsimp only
  rw [hnext]
  rfl

theorem diverges_of_hashtag (hlt : s.offset < text.length) (hoffset : s.matchOffset = s.offset)
    (hcommand : s.offset ≤ (s.refresh text).commandOffset)
    (hlink : (s.refresh text).inLink = false) (hnone : domains s.offset = none)
    (hsome : hashtags s.offset = some b)
    (hrest : Diverges (hops domains hashtags) hashtagFlags text
      { s.refresh text with offset := b, matchOffset := b }) :
    Diverges (hops domains hashtags) hashtagFlags text s := by
  have hmatchOffset : (s.refresh text).matchOffset = s.offset := by
    rw [(@refresh_frame text s).2, hoffset]
  obtain ⟨link, hnext⟩ := @nextLink_hashtag text s b domains hashtags
    (by rw [hmatchOffset, hnone]) (by rw [hmatchOffset, hsome])
    (check_before (by omega))
  rw [hlink, if_neg Bool.false_ne_true] at hnext
  exact diverges_of_next hlt hnext hrest

/-! ## Texts that are not harmless -/

theorem StartsLink.lt_length (h : StartsLink text d) : d + 2 < text.length := by
  by_contra hnot
  have hstarts := h.2
  rw [textcmdStartsLink, if_neg hnot] at hstarts
  cases hstarts

theorem start_refresh (hd : StartsLink text d) (hfirst : ∀ c < d, ¬ StartsLink text c) :
    ((startScan text true).refresh text).inLink = false ∧
      (((startScan text true).refresh text).commandOffset < d ∧
          ((startScan text true).refresh text).commandIsLink = false ∨
        ((startScan text true).refresh text).commandOffset = d ∧
          ((startScan text true).refresh text).commandIsLink = true) := by
  have hlt := (List.getElem?_eq_some_iff.mp hd.1).1
  have hle : nextCommand text 0 ≤ d := by
    by_contra hgt
    exact nextCommand_minimal (Nat.zero_le d) (by omega) hd.1
  have hrefresh : (startScan text true).refresh text =
      { startScan text true with
        commandOffset := nextCommand text 0
        commandIsLink := textcmdStartsLink text (nextCommand text 0) } := by
    have hfound : nextCommand text (startScan text true).offset < text.length := hle.trans_lt hlt
    rw [Scan.refresh, if_pos (show (startScan text true).commandOffset ≤
      (startScan text true).offset from le_rfl)]
    exact if_pos hfound
  rw [hrefresh]
  refine ⟨rfl, ?_⟩
  dsimp only
  by_cases hsame : nextCommand text 0 = d
  · exact .inr ⟨hsame, by rw [hsame, hd.2]⟩
  · have hless : nextCommand text 0 < d := by omega
    have hchar : text[nextCommand text 0]? = some textCommand := getElem?_nextCommand (by omega)
    refine .inl ⟨hless, ?_⟩
    by_contra htrue
    exact hfirst _ hless ⟨hchar, by simpa using htrue⟩

theorem start_diverges (hd : StartsLink text d) (hfirst : ∀ c < d, ¬ StartsLink text c)
    (hhop : d ≠ 0 → domains 0 = none ∧ hashtags 0 = some d)
    (hrest : ∀ s : Scan, s.offset = d → s.matchOffset = d → s.commandOffset ≤ d →
      Diverges (hops domains hashtags) hashtagFlags text s) :
    Diverges (hops domains hashtags) hashtagFlags text (startScan text true) := by
  by_cases hzero : d = 0
  · subst hzero
    exact hrest _ rfl rfl le_rfl
  · have hlt := (List.getElem?_eq_some_iff.mp hd.1).1
    obtain ⟨hnone, hsome⟩ := hhop hzero
    obtain ⟨hlink, hcommand⟩ := start_refresh hd hfirst
    apply diverges_of_hashtag (s := startScan text true) (by show 0 < text.length; omega) rfl
      (Nat.zero_le _) hlink hnone hsome
    apply hrest _ rfl rfl
    dsimp only
    omega

theorem diverges_of_two {d' : Nat} (hd : StartsLink text d)
    (hfirst : ∀ c < d, ¬ StartsLink text c) (hd' : StartsLink text d') (hlt : d < d') :
    ∃ g, g.Valid text ∧ Diverges g hashtagFlags text (startScan text true) := by
  have hlen := hd'.lt_length
  let ends : Nat → Option Nat := fun q =>
    if q = d' then some (d' + 1) else if q = d then some d' else if q = 0 then some d else none
  have hends : ends d = some d' := by
    show (if d = d' then _ else _) = _
    rw [if_neg (by omega), if_pos rfl]
  have hends' : ends d' = some (d' + 1) := if_pos rfl
  have hstuck : ∀ s, Stuck d' s → Diverges (hops (fun _ => none) ends) hashtagFlags text s :=
    fun s hs => stuck_diverges hd' (.inr ⟨rfl, by rw [hends']; rfl⟩) hs
  refine ⟨hops (fun _ => none) ends, hops_valid (fun o b hb => by cases hb) ?_,
    start_diverges hd hfirst ?_ ?_⟩
  · intro o b hb
    dsimp only [ends] at hb
    split_ifs at hb <;> cases hb <;> omega
  · intro hzero
    refine ⟨rfl, ?_⟩
    show (if 0 = d' then _ else _) = _
    rw [if_neg (by omega), if_neg (Ne.symm hzero), if_pos rfl]
  · intro s hoffset hmatchOffset hle
    cases hlink : s.commandIsLink with
    | true => exact stuck_diverges hd (.inr ⟨rfl, by rw [hends]; rfl⟩) ⟨hoffset, hmatchOffset, hle, hlink⟩
    | false =>
      have hrefresh := refresh_at (s := s) (by rw [hoffset]; exact hd.1) (by omega)
      apply diverges_of_hashtag (b := d') (by omega) (by omega) (by rw [hrefresh])
        (by rw [hrefresh]; exact hlink) rfl (by rw [hoffset, hends])
      apply hstuck
      rw [hrefresh, hoffset, hd.2]
      exact ⟨rfl, rfl, hlt.le, rfl⟩

/-- The command of the first link is not complete: a domain there that is not a link makes the loop
look at it again. -/
theorem diverges_of_incomplete (hd : StartsLink text d) (hfirst : ∀ c < d, ¬ StartsLink text c)
    (hincomplete : ¬ Complete text d) :
    ∃ g, g.Valid text ∧ Diverges g hashtagFlags text (startScan text true) := by
  have hlen := hd.lt_length
  let domainEnds : Nat → Option Nat := fun q =>
    if q = d then some (d + 1) else if q = d + 1 then some (d + 2) else none
  let hashtagEnds : Nat → Option Nat := fun q => if q = 0 ∧ d ≠ 0 then some d else none
  have hhere : domainEnds d = some (d + 1) := if_pos rfl
  have hnext : domainEnds (d + 1) = some (d + 2) := by
    show (if d + 1 = d then _ else _) = _
    rw [if_neg (by omega), if_pos rfl]
  have hnone : hashtagEnds d = none := if_neg (by omega)
  have hnone' : hashtagEnds (d + 1) = none := if_neg (by omega)
  have hstuck : ∀ s, Stuck d s → Diverges (hops domainEnds hashtagEnds) hashtagFlags text s :=
    fun s hs => stuck_diverges hd (.inl ⟨by rw [hhere]; rfl, hnone⟩) hs
  refine ⟨hops domainEnds hashtagEnds, hops_valid ?_ ?_, start_diverges hd hfirst ?_ ?_⟩
  · intro o b hb
    dsimp only [domainEnds] at hb
    split_ifs at hb <;> cases hb <;> omega
  · intro o b hb
    dsimp only [hashtagEnds] at hb
    split_ifs at hb
    cases hb
    omega
  · intro hzero
    refine ⟨?_, if_pos ⟨rfl, hzero⟩⟩
    show (if 0 = d then _ else _) = _
    rw [if_neg (Ne.symm hzero), if_neg (by omega)]
  · intro s hoffset hmatchOffset hle
    cases hlink : s.commandIsLink with
    | true => exact hstuck s ⟨hoffset, hmatchOffset, hle, hlink⟩
    | false =>
      have hrefresh := refresh_at (s := s) (by rw [hoffset]; exact hd.1) (by omega)
      rw [hoffset, hlink, hd.2] at hrefresh
      have hround := @nextLink_domain text s (d + 1) domainEnds hashtagEnds
        (by rw [hrefresh]; exact hmatchOffset ▸ hnone)
        (by
          rw [hrefresh]
          show domainEnds s.matchOffset = _
          rw [hmatchOffset, hhere])
        (check_before (by rw [hrefresh]; exact hmatchOffset.le))
      rw [hrefresh, if_neg Bool.false_ne_true] at hround
      refine diverges_of_next (by omega) hround ?_
      -- the command does not end in front of the second domain, and the state says it is a link
      have hagain := @refresh_at text { s with
        offset := d, matchOffset := d + 1, commandOffset := d, inLink := false,
        commandIsLink := true } hd.1 le_rfl
      dsimp only at hagain
      rw [hd.2] at hagain
      have hround' := @nextLink_domain text { s with
          offset := d, matchOffset := d + 1, commandOffset := d, inLink := false,
          commandIsLink := true } (d + 2) domainEnds hashtagEnds
        (by rw [hagain]; exact hnone') (by rw [hagain]; exact hnext)
        (by rw [hagain]; exact check_incomplete hincomplete)
      rw [hagain, if_pos rfl] at hround'
      exact diverges_of_next (by dsimp only; omega) hround' (hstuck _ ⟨rfl, rfl, le_rfl, rfl⟩)

theorem refresh_before {e : Nat} (hd : StartsLink text (e + 1)) (hchar : text[e]? ≠ some textCommand)
    (hoffset : s.offset = e) (hle : s.commandOffset ≤ e) :
    s.refresh text =
      { s with commandOffset := e + 1, inLink := s.commandIsLink, commandIsLink := true } := by
  have hlt := (List.getElem?_eq_some_iff.mp hd.1).1
  have hnext : nextCommand text s.offset = e + 1 := by
    apply nextCommand_eq (by omega) hd.1
    intro c hc hless
    rw [show c = e by omega]
    exact hchar
  rw [Scan.refresh, if_pos (by omega)]
  dsimp only
  rw [hnext, if_pos hlt, hd.2]

theorem before_diverges {e : Nat} (hd : StartsLink text (e + 1)) (hoffset : s.offset = e)
    (hmatchOffset : s.matchOffset = e) (hlink : (s.refresh text).inLink = false)
    (hcommand : (s.refresh text).commandOffset = e + 1)
    (hcommandIsLink : (s.refresh text).commandIsLink = true)
    (hsome : hashtags e = some (e + 1)) (hnext : (hashtags (e + 1)).isSome) :
    Diverges (hops (fun _ => none) hashtags) hashtagFlags text s := by
  have hlt := (List.getElem?_eq_some_iff.mp hd.1).1
  apply diverges_of_hashtag (b := e + 1) (by omega) (by omega) (by omega) hlink rfl
    (by rw [hoffset, hsome])
  exact stuck_diverges hd (.inr ⟨rfl, hnext⟩) ⟨rfl, rfl, hcommand.le, hcommandIsLink⟩

/-- The first link is behind another character: a hashtag up to it makes the loop stop there. -/
theorem diverges_of_preceded (hd : StartsLink text d) (hfirst : ∀ c < d, ¬ StartsLink text c)
    (hzero : d ≠ 0) (hchar : text[d - 1]? ≠ some textCommand) :
    ∃ g, g.Valid text ∧ Diverges g hashtagFlags text (startScan text true) := by
  obtain ⟨e, rfl⟩ := Nat.exists_eq_succ_of_ne_zero hzero
  rw [Nat.succ_eq_add_one, Nat.add_sub_cancel] at *
  have hlen := hd.lt_length
  let ends : Nat → Option Nat := fun q =>
    if q = e + 1 then some (e + 2) else if q = e then some (e + 1) else
      if q = 0 then some e else none
  have hends : ends e = some (e + 1) := by
    show (if e = e + 1 then _ else _) = _
    rw [if_neg (by omega), if_pos rfl]
  have hends' : (ends (e + 1)).isSome := by
    show (if e + 1 = e + 1 then _ else _ : Option Nat).isSome
    rw [if_pos rfl]
    rfl
  refine ⟨hops (fun _ => none) ends, hops_valid (fun o b hb => by cases hb) ?_, ?_⟩
  · intro o b hb
    dsimp only [ends] at hb
    split_ifs at hb <;> cases hb <;> omega
  · by_cases hstart : e = 0
    · subst hstart
      have hrefresh := refresh_before (s := startScan text true) hd hchar rfl le_rfl
      exact before_diverges hd rfl rfl (by rw [hrefresh]; rfl) (by rw [hrefresh])
        (by rw [hrefresh]) hends hends'
    · obtain ⟨hlink, hcommand⟩ := start_refresh hd hfirst
      apply diverges_of_hashtag (b := e) (s := startScan text true)
        (by show 0 < text.length; omega) rfl (Nat.zero_le _) hlink rfl
      · have hbegin : ends 0 = some e := by
          show (if 0 = e + 1 then _ else _) = _
          rw [if_neg (by omega), if_neg (Ne.symm hstart), if_pos rfl]
        exact hbegin
      · rcases hcommand with ⟨hless, hnot⟩ | ⟨hsame, htrue⟩
        · have hrefresh := refresh_before (s := { (startScan text true).refresh text with
            offset := e, matchOffset := e }) hd hchar rfl (by dsimp only; omega)
          exact before_diverges hd rfl rfl (by rw [hrefresh]; exact hnot) (by rw [hrefresh])
            (by rw [hrefresh]) hends hends'
        · have hrefresh : Scan.refresh text { (startScan text true).refresh text with
              offset := e, matchOffset := e } =
              { (startScan text true).refresh text with offset := e, matchOffset := e } := by
            rw [Scan.refresh, if_neg (by dsimp only; omega)]
          exact before_diverges hd rfl rfl (by rw [hrefresh]; exact hlink)
            (by rw [hrefresh]; exact hsame) (by rw [hrefresh]; exact htrue) hends hends'

theorem diverges_of_not_harmless (h : ¬ Harmless text) :
    ∃ g, g.Valid text ∧ Diverges g hashtagFlags text (startScan text true) := by
  rw [Harmless] at h
  push Not at h
  obtain ⟨c, hc, hnot⟩ := h
  classical
  have hex : ∃ d, StartsLink text d := ⟨c, hc⟩
  have hfirst : ∀ c < Nat.find hex, ¬ StartsLink text c := fun c hlt => Nat.find_min hex hlt
  have hd := Nat.find_spec hex
  generalize Nat.find hex = d at hfirst hd
  by_cases htwo : ∃ d', StartsLink text d' ∧ d' ≠ d
  · obtain ⟨d', hd', hne⟩ := htwo
    have hle : d ≤ d' := by
      by_contra hgt
      exact hfirst d' (by omega) hd'
    exact diverges_of_two hd hfirst hd' (by omega)
  · push Not at htwo
    have hsame : c = d := htwo c hc
    subst hsame
    by_cases hcomplete : Complete text c
    · by_cases hplace : c = 0 ∨ text[c - 1]? = some textCommand
      · obtain ⟨c', hc', hne⟩ := hnot hcomplete hplace
        exact absurd (htwo c' hc') hne
      · push Not at hplace
        exact diverges_of_preceded hd hfirst hplace.1 hplace.2
    · exact diverges_of_incomplete hd hfirst hcomplete

/-- The loop ends for all flags and regular expressions if and only if rich parsing is off or the
text is harmless. -/
theorem parseEntities_ends_iff (text : List QChar) (rich : Bool) :
    (∀ (g : LinkSyntax) (flags : ParseFlags) (entities : List EntityInText), g.Valid text →
        ∃ n result, parseEntities g flags rich n ⟨text, entities⟩ = some result) ↔
      (rich = true → Harmless text) := by
  constructor
  · intro hends hrich
    subst hrich
    by_contra hnot
    obtain ⟨g, hvalid, hdiverges⟩ := diverges_of_not_harmless hnot
    obtain ⟨n, result, hrun⟩ := hends g hashtagFlags [] hvalid
    rw [parseEntities, hdiverges] at hrun
    cases hrun
  · intro h g flags entities hvalid
    exact parseEntities_ends hvalid h entities

/-- Two hashtags with a command between them that is not complete. -/
def stuckText : List QChar := [0x23, 0x61, 0x62, 0x10, 0x78, 0x79, 0x20, 0x23, 0x63, 0x64]

/-- The hashtags of this text, with their separators. -/
def stuckHashtags (_ : List QChar) (offset : Nat) : Option Match :=
  if offset = 0 then some ⟨0, 4, fun n => if n = 2 then [0x10] else []⟩
  else if offset ≤ 6 then some ⟨6, 10, fun n => if n = 1 then [0x20] else []⟩
  else none

theorem stuckHashtags_valid : (tagSyntax (fun _ _ => none) stuckHashtags).Valid stuckText := by
  apply tagSyntax_valid
  · intro offset m hm
    cases hm
  · intro offset m hm
    rw [stuckHashtags] at hm
    split_ifs at hm with hzero hsix
    · cases hm
      subst hzero
      simp [Match.TagInside, Match.tag, stuckText]
    · cases hm
      simp [Match.TagInside, Match.tag, stuckText, hsix]

theorem parseEntities_stuck :
    ¬ ∀ (g : LinkSyntax) (flags : ParseFlags) (rich : Bool) (text : List QChar)
        (entities : List EntityInText), g.Valid text →
      ∃ n result, parseEntities g flags rich n ⟨text, entities⟩ = some result := by
  intro hends
  obtain ⟨n, result, hrun⟩ := hends (tagSyntax (fun _ _ => none) stuckHashtags) hashtagFlags true
    stuckText [] stuckHashtags_valid
  let again : Scan := ⟨3, 3, 0, 3, true, true⟩
  have hfirst : nextLink (tagSyntax (fun _ _ => none) stuckHashtags) hashtagFlags stuckText
      (startScan stuckText true) = some (⟨3, 3, 0, 3, false, true⟩, some ⟨.hashtag, 0, 3, []⟩) := by
    decide +kernel
  have hsecond : nextLink (tagSyntax (fun _ _ => none) stuckHashtags) hashtagFlags stuckText
      ⟨3, 3, 0, 3, false, true⟩ = some (again, none) := by decide +kernel
  have hagain : nextLink (tagSyntax (fun _ _ => none) stuckHashtags) hashtagFlags stuckText
      again = some (again, none) := by decide +kernel
  have hlength : (3 : Nat) < stuckText.length := by decide
  have hstuck : Diverges (tagSyntax (fun _ _ => none) stuckHashtags) hashtagFlags stuckText
      again := by
    intro count n m
    apply Loops.iterate_none (I := fun s : Scan × Merged => s.1 = again) _ rfl
    rintro ⟨s, m⟩ hs
    dsimp only at hs
    subst hs
    refine ⟨(again, m), ?_, rfl⟩
    rw [parseStep, if_pos hlength]
    dsimp only
    rw [hagain]
    rfl
  have hdiverges : Diverges (tagSyntax (fun _ _ => none) stuckHashtags) hashtagFlags stuckText
      (startScan stuckText true) :=
    diverges_of_next (by decide) hfirst (diverges_of_next hlength hsecond hstuck)
  rw [parseEntities, hdiverges] at hrun
  cases hrun

end TelegramClient.Text
