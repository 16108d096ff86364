import TelegramClient.Text.Commands
import TelegramClient.Text.Entities
import TelegramClient.Lib.Loops

/-! `ParseEntities` of `ui/text/text_entity.cpp`, which looks for links in a text. Regular
expressions, the tables of protocols and domains and the classes of letters are parameters. -/

namespace TelegramClient.Text

open Lang (textCommand)

/-- `QRegularExpressionMatch`, when there is one. -/
structure Match where
  capturedStart : Nat
  capturedEnd : Nat
  captured : Nat → List QChar

structure LinkSyntax extends Platform where
  domain : List QChar → Nat → Option Match
  domainExplicit : List QChar → Nat → Option Match
  hashtag : List QChar → Nat → Option Match
  hashtagExclude : List QChar → Bool
  mention : List QChar → Nat → Option Match
  botCommand : List QChar → Nat → Option Match
  mailNameAtEnd : List QChar → Option Match
  isValidProtocol : List QChar → Bool
  isValidTopDomain : List QChar → Bool
  toLower : List QChar → List QChar
  isLetter : QChar → Bool
  isLetterOrNumber : QChar → Bool

structure ParseFlags where
  withHashtags : Bool
  withMentions : Bool
  withBotCommands : Bool

/-! ### Commands in the text -/

/-- Where the loop is in the text, and what it knows of the commands there. -/
structure Scan where
  offset : Nat
  matchOffset : Nat
  mentionSkip : Nat
  commandOffset : Nat
  inLink : Bool
  commandIsLink : Bool
  deriving DecidableEq, Repr

/-- The first character from a position on that starts commands, or the end of the text. -/
def nextCommand (text : List QChar) (position : Nat) : Nat :=
  position + (text.drop position).findIdx (· == textCommand)

def textcmdStartsLink (text : List QChar) (commandOffset : Nat) : Bool :=
  if commandOffset + 2 < text.length then
    if text[commandOffset + 1]? = some textCommandLinkIndex then
      text[commandOffset + 2]? ≠ some 0
    else text[commandOffset + 1]? ≠ some textCommandLinkText
  else false

/-- The search for the next command at the start of a round. -/
def Scan.refresh (text : List QChar) (s : Scan) : Scan :=
  if s.commandOffset ≤ s.offset then
    let commandOffset := nextCommand text s.offset
    if commandOffset < text.length then
      { s with
        commandOffset := commandOffset
        inLink := s.commandIsLink
        commandIsLink := textcmdStartsLink text commandOffset }
    else { s with commandOffset := commandOffset }
  else s

theorem le_nextCommand (text : List QChar) (position : Nat) :
    position ≤ nextCommand text position := Nat.le_add_right _ _

/-- Commands are skipped up to the start of a tag. -/
def checkTagStartInCommand (text : List QChar) (tagStart : Nat) (s : Scan) : Bool × Scan :=
  if s.commandOffset < text.length ∧ tagStart > s.commandOffset then
    let skip := textSkipCommand true (text.drop s.commandOffset)
    if 0 < skip then
      let commandEnd := s.commandOffset + skip
      if tagStart < commandEnd then (true, { s with commandOffset := commandEnd })
      else
        let commandOffset := nextCommand text commandEnd
        checkTagStartInCommand text tagStart
          { s with
            commandOffset := commandOffset
            inLink := s.commandIsLink
            commandIsLink :=
              if commandOffset < text.length then textcmdStartsLink text commandOffset else false }
    else (false, s)
  else (false, s)
termination_by text.length - s.commandOffset
decreasing_by
  have hnext := le_nextCommand text
    (s.commandOffset + textSkipCommand true (text.drop s.commandOffset))
  show text.length - nextCommand text _ < _
  omega

/-! ### Tags -/

/-- The part of a match between the separators, which it may contain. -/
def Match.tag (m : Match) (last : Nat) : Nat × Nat :=
  (if m.captured 1 ≠ [] then m.capturedStart + 1 else m.capturedStart,
    if m.captured last ≠ [] then m.capturedEnd - 1 else m.capturedEnd)

variable (g : LinkSyntax) (flags : ParseFlags) (text : List QChar)

/-- A round of the loop over mentions that are not of letters. The result says whether the mention
is ignored. -/
def mentionStep (matchOffset : Nat) (s : Match × Nat) :
    (Bool × (Nat × Nat) × Nat) ⊕ (Match × Nat) :=
  let (mentionStart, mentionEnd) := s.1.tag 2
  if !text[mentionStart + 1]?.any g.isLetter || !text[mentionEnd - 1]?.any g.isLetterOrNumber then
    match g.mention text (max mentionEnd matchOffset) with
    | some m => .inr (m, mentionEnd)
    | none => .inl (true, (mentionStart, mentionEnd), mentionEnd)
  else .inl (false, (mentionStart, mentionEnd), s.2)

/-- What was found in a round, with where it starts and ends. -/
structure Candidates where
  domain : Option Match
  hashtag : Option (Nat × Nat)
  hashtagIgnore : Bool
  mention : Option (Nat × Nat)
  mentionIgnore : Bool
  botCommand : Option (Nat × Nat)

/-- Whether one position is before another one, where nothing is behind everything. -/
def isBefore : Option Nat → Option Nat → Bool
  | some a, some b => a < b
  | some _, none => true
  | none, _ => false

/-- The mention of a round, whether it is ignored, and the position mentions are skipped to. -/
def findMention (s : Scan) : Option (Option (Nat × Nat) × Bool × Nat) :=
  let mMention :=
    if flags.withMentions then g.mention text (max s.mentionSkip s.matchOffset) else none
  match mMention with
  | none => some (none, false, s.mentionSkip)
  | some m =>
    (Loops.iterate (mentionStep g text s.matchOffset) (text.length + 1) (m, s.mentionSkip)).map
      fun (mentionIgnore, mention, mentionSkip) => (some mention, mentionIgnore, mentionSkip)

def findDomain (matchOffset : Nat) : Option Match :=
  let mDomain := g.domain text matchOffset
  let mExplicitDomain := g.domainExplicit text matchOffset
  if isBefore (mExplicitDomain.map (·.capturedStart)) (mDomain.map (·.capturedStart)) then
    mExplicitDomain
  else mDomain

def findCandidates (s : Scan) : Option (Candidates × Nat) :=
  (findMention g flags text s).map fun (mention, mentionIgnore, mentionSkip) =>
    let hashtag :=
      ((if flags.withHashtags then g.hashtag text s.matchOffset else none).map (·.tag 2))
    let hashtagIgnore := hashtag.any fun (start, end_) =>
      g.hashtagExclude ((text.drop (start + 1)).take (end_ - start - 1))
    let botCommand :=
      ((if flags.withBotCommands then g.botCommand text s.matchOffset else none).map (·.tag 3))
    ({ domain := findDomain g text s.matchOffset
       hashtag := hashtag
       hashtagIgnore := hashtagIgnore
       mention := mention
       mentionIgnore := mentionIgnore
       botCommand := botCommand }, mentionSkip)

def Candidates.hasMatch (c : Candidates) : Bool :=
  c.domain.isSome || c.hashtag.isSome || (c.mention.isSome && !c.mentionIgnore) ||
    c.botCommand.isSome

inductive Found where
  | ignored (end_ : Nat)
  | tag (type : EntityType) (start end_ : Nat)
  | domain (m : Match)

/-- What comes first. -/
def Candidates.first (c : Candidates) : Option Found :=
  let domainStart := c.domain.map (·.capturedStart)
  let hashtagStart := c.hashtag.map (·.1)
  let mentionStart := c.mention.map (·.1)
  let botCommandStart := c.botCommand.map (·.1)
  if isBefore mentionStart hashtagStart && isBefore mentionStart domainStart &&
      isBefore mentionStart botCommandStart then
    c.mention.map fun (start, end_) =>
      if c.mentionIgnore then .ignored end_ else .tag .mention start end_
  else if isBefore hashtagStart domainStart && isBefore hashtagStart botCommandStart then
    c.hashtag.map fun (start, end_) =>
      if c.hashtagIgnore then .ignored end_ else .tag .hashtag start end_
  else if isBefore botCommandStart domainStart then
    c.botCommand.map fun (start, end_) => .tag .botCommand start end_
  else c.domain.map .domain

/-! ### Domains -/

/-- The character the link goes on with, behind those that end it unless something follows. -/
def skipAlmostLinkEnd (p : Nat) (ch : QChar) : Option (Nat × QChar) :=
  if chIsAlmostLinkEnd ch then
    let endTest := p + 1 + ((text.drop (p + 1)).takeWhile chIsAlmostLinkEnd).length
    match text[endTest]? with
    | none => none
    | some ch => if g.chIsLinkEnd ch then none else some (endTest, ch)
  else some (p, ch)

def closes (open_ ch : QChar) : Bool :=
  (ch == 0x29 && open_ == 0x28) || (ch == 0x5D && open_ == 0x5B) || (ch == 0x7D && open_ == 0x7B) ||
    (ch == 0x3E && open_ == 0x3C)

/-- Where the link ends at a bracket, or the open brackets. -/
def checkParenth (p : Nat) (ch : QChar) (parenth : List Nat) : Nat ⊕ List Nat :=
  if ch = 0x28 || ch = 0x5B || ch = 0x7B || ch = 0x3C then .inr (p :: parenth)
  else if ch = 0x29 || ch = 0x5D || ch = 0x7D || ch = 0x3E then
    match parenth with
    | [] => .inl p
    | q :: parenth => if text[q]?.all fun open_ => !closes open_ ch then .inl q else .inr parenth
  else .inr parenth

theorem skipAlmostLinkEnd_ge {p p' : Nat} {ch ch' : QChar}
    (h : skipAlmostLinkEnd g text p ch = some (p', ch')) : p ≤ p' ∧ text[p']? = some ch' ∨
      p = p' ∧ ch = ch' := by
  rw [skipAlmostLinkEnd] at h
  split at h
  · left
    dsimp only at h
    split at h
    · cases h
    next hend =>
      split at h
      · cases h
      · cases h
        exact ⟨by omega, hend⟩
  · right
    cases h
    exact ⟨rfl, rfl⟩

/-- Where a link ends, from a position in it on. -/
def linkEnd (p : Nat) (parenth : List Nat) : Nat :=
  match _h : text[p]? with
  | none => p
  | some ch =>
    if g.chIsLinkEnd ch then p
    else
      match _hskip : skipAlmostLinkEnd g text p ch with
      | none => p
      | some (p', ch) =>
        match checkParenth text p' ch parenth with
        | .inl p => p
        | .inr parenth => linkEnd (p' + 1) parenth
termination_by text.length - p
decreasing_by
  have hp := (List.getElem?_eq_some_iff.mp _h).1
  have hge := skipAlmostLinkEnd_ge g text _hskip
  omega

/-- Where to look for the next match, or the type, the start and the end of the link. -/
def domainLink (offset : Nat) (m : Match) : Nat ⊕ (EntityType × Nat × Nat) :=
  let domainStart := m.capturedStart
  let domainEnd := m.capturedEnd
  let protocol := g.toLower (m.captured 1)
  let topDomain := g.toLower (m.captured 3)
  let isProtocolValid := protocol = [] || g.isValidProtocol protocol
  let isTopDomainValid := protocol ≠ [] || g.isValidTopDomain topDomain
  let mMailName :=
    if protocol = [] && domainStart > offset + 1 && text[domainStart - 1]? = some 0x40 then
      g.mailNameAtEnd ((text.drop offset).take (domainStart - offset - 1))
    else none
  match mMailName with
  | some mail => .inr (.email, offset + mail.capturedStart, domainEnd)
  | none =>
    if !isProtocolValid || !isTopDomainValid then .inl domainEnd
    else
      let p := linkEnd g text domainEnd []
      if p > domainEnd && text[domainEnd]? ≠ some 0x2F && text[domainEnd]? ≠ some 0x3F then
        .inl domainEnd
      else .inr (.url, domainStart, p)

/-! ### The loop -/

/-- What a round does in the text, and the link it finds. -/
def nextLink (s : Scan) : Option (Scan × Option EntityInText) :=
  let s := s.refresh text
  match findCandidates g flags text s with
  | none => some (s, none)
  | some (c, mentionSkip) =>
    let s := { s with mentionSkip := mentionSkip }
    if !c.hasMatch then none
    else
      c.first.map fun found =>
        match found with
        | .ignored end_ => ({ s with offset := end_, matchOffset := end_ }, none)
        | .tag type start end_ =>
          let (inCommand, s) := checkTagStartInCommand text start s
          if inCommand || s.inLink then
            ({ s with offset := s.commandOffset, matchOffset := s.commandOffset }, none)
          else
            ({ s with offset := end_, matchOffset := end_ }, some ⟨type, start, end_ - start, []⟩)
        | .domain m =>
          let (inCommand, s) := checkTagStartInCommand text m.capturedStart s
          if inCommand || s.inLink then
            ({ s with offset := s.commandOffset, matchOffset := s.commandOffset }, none)
          else
            match domainLink g text s.offset m with
            | .inl domainEnd => ({ s with matchOffset := domainEnd }, none)
            | .inr (type, start, end_) =>
              ({ s with offset := end_, matchOffset := end_ },
                some ⟨type, start, end_ - start, []⟩)

/-- The entities the loop has, those of `result` and the new ones. -/
structure Merged where
  existingEntityIndex : Nat
  existingEntityEnd : Int
  entities : List EntityInText
  newEntities : List EntityInText

/-- The existing entities that start before a link. -/
def takeExisting (existingEntitiesCount : Nat) (lnkStart : Int) (m : Merged) : Merged :=
  if _h : m.existingEntityIndex < existingEntitiesCount then
    match m.entities[m.existingEntityIndex]? with
    | none => m
    | some entity =>
      if entity.offset ≤ lnkStart then
        takeExisting existingEntitiesCount lnkStart
          { m with
            existingEntityIndex := m.existingEntityIndex + 1
            existingEntityEnd := max m.existingEntityEnd (entity.offset + entity.length)
            newEntities := m.newEntities ++ [entity] }
      else m
  else m
termination_by existingEntitiesCount - m.existingEntityIndex

def addLink (existingEntitiesCount : Nat) (link : EntityInText) (m : Merged) : Merged :=
  let m := takeExisting existingEntitiesCount link.offset m
  if link.offset ≥ m.existingEntityEnd then { m with entities := m.entities ++ [link] } else m

/-- A round of the loop, until it breaks. -/
def parseStep (existingEntitiesCount : Nat) (s : Scan × Merged) : Merged ⊕ (Scan × Merged) :=
  if s.1.offset < text.length then
    match nextLink g flags text s.1 with
    | none => .inl s.2
    | some (scan, link) =>
      .inr (scan, link.elim s.2 fun link => addLink existingEntitiesCount link s.2)
  else .inl s.2

def startScan (rich : Bool) : Scan :=
  { offset := 0
    matchOffset := 0
    mentionSkip := 0
    commandOffset := if rich then 0 else text.length
    inLink := false
    commandIsLink := false }

/-- The entities after the loop. -/
def Merged.finish (existingEntitiesCount : Nat) (m : Merged) : List EntityInText :=
  if m.newEntities ≠ [] then
    m.newEntities ++ (m.entities.take existingEntitiesCount).drop m.existingEntityIndex
  else m.entities

/-- The result if the loop ends within `n` rounds. -/
def parseEntities (rich : Bool) (n : Nat) (result : TextWithEntities) : Option TextWithEntities :=
  let existingEntitiesCount := result.entities.length
  (Loops.iterate (parseStep g flags result.text existingEntitiesCount) n
    (startScan result.text rich, ⟨0, 0, result.entities, []⟩)).map
    fun m => { result with entities := m.finish existingEntitiesCount }

end TelegramClient.Text
