import TelegramClient.Text.Commands
import TelegramClient.Text.Entities
import TelegramClient.Lib.Rewriting

/-! The replacement of tags in language strings: `FindTagReplacementPosition` of
`lang/lang_tag.cpp` and `ReplaceTag<TextWithEntities>` of `ui/text/text_entity.cpp`. -/

namespace TelegramClient.Text

open Lang (textCommand textCommandLangTag)
open Rewriting

def kTagReplacementSize : Nat := 4

/-- The tag of the tag command at the start of the text, with `0x0020` added. -/
def langTag : List QChar → Option QChar
  | ch :: cmd :: tag :: last :: _ =>
    if ch = textCommand && cmd = textCommandLangTag && last = textCommand then some tag else none
  | _ => none

/-- The text from `position` on is looked at. -/
def findTagReplacementPosition (tag : UInt16) (position : Nat) (text : List QChar) : Option Nat :=
  if text = [] then none
  else
    match langTag text with
    | some found =>
      if found.toNat = 0x0020 + tag.toNat then some position
      else findTagReplacementPosition tag (position + kTagReplacementSize)
        (text.drop kTagReplacementSize)
    | none =>
      let next := textSkipCommand true text
      if next = 0 then findTagReplacementPosition tag (position + 1) (text.drop 1)
      else findTagReplacementPosition tag (position + next) (text.drop next)
termination_by text.length
decreasing_by
  all_goals
    have hpos : 0 < text.length := List.length_pos_iff.mpr ‹_›
    simp only [kTagReplacementSize, List.length_drop]
    omega

/-- `ReplaceTag<QString>::Replace` -/
def replace (original replacement : List QChar) (replacementPosition : Nat) : List QChar :=
  let start := if replacementPosition > 0 then original.take replacementPosition else []
  let rest :=
    if replacementPosition + kTagReplacementSize < original.length then
      original.drop (replacementPosition + kTagReplacementSize)
    else []
  start ++ replacement ++ rest

def snap (v min max : Int) : Int := if v < min then min else if v > max then max else v

/-- An entity of the replacement, and nothing if it has no characters. -/
def addReplacementEntity (replacementPosition replacementEnd : Int) (entity : EntityInText) :
    List EntityInText :=
  let newOffset := replacementPosition + entity.offset
  let newEnd := newOffset + entity.length
  let newOffset := snap newOffset replacementPosition replacementEnd
  let newEnd := snap newEnd replacementPosition replacementEnd
  if newEnd - newOffset ≠ 0 then
    [{ entity with offset := newOffset, length := newEnd - newOffset }]
  else []

/-- The entities that were added, and those that are left. -/
def addReplacementEntitiesUntil (replacementPosition replacementEnd untilPosition : Int) :
    List EntityInText → List EntityInText × List EntityInText
  | [] => ([], [])
  | entity :: rest =>
    if replacementPosition + entity.offset ≥ untilPosition then ([], entity :: rest)
    else
      let (added, left) :=
        addReplacementEntitiesUntil replacementPosition replacementEnd untilPosition rest
      (addReplacementEntity replacementPosition replacementEnd entity ++ added, left)

/-- Where a border of an entity gets to. -/
def transformed (replacementPosition replacementSize resultSize : Int) (border : Int) : Int :=
  let moved :=
    if border > replacementPosition then border + replacementSize - kTagReplacementSize else border
  snap moved 0 resultSize

def replaceEntities (replacementPosition replacementSize resultSize : Int) :
    List EntityInText → List EntityInText → List EntityInText
  | [], replacement =>
    (addReplacementEntitiesUntil replacementPosition (replacementPosition + replacementSize)
      resultSize replacement).1
  | entity :: rest, replacement =>
    let offset := transformed replacementPosition replacementSize resultSize entity.offset
    let end_ :=
      transformed replacementPosition replacementSize resultSize (entity.offset + entity.length)
    let (added, left) := addReplacementEntitiesUntil replacementPosition
      (replacementPosition + replacementSize) offset replacement
    added ++
      (if end_ - offset ≠ 0 then [{ entity with offset := offset, length := end_ - offset }]
        else []) ++
      replaceEntities replacementPosition replacementSize resultSize rest left

def replaceTag (original : TextWithEntities) (tag : UInt16) (replacement : TextWithEntities) :
    TextWithEntities :=
  match findTagReplacementPosition tag 0 original.text with
  | none => original
  | some replacementPosition =>
    let text := replace original.text replacement.text replacementPosition
    { text := text
      entities :=
        if original.entities.length ≠ 0 || replacement.entities.length ≠ 0 then
          replaceEntities replacementPosition replacement.text.length text.length original.entities
            replacement.entities
        else [] }

/-! ### What a text consists of -/

/-- How far the search goes from the start of the text. -/
def tokenLength (text : List QChar) : Nat :=
  if (langTag text).isSome then kTagReplacementSize else max 1 (textSkipCommand true text)

/-- The characters and commands of a text. -/
def tokens (text : List QChar) : List (List QChar) :=
  if text = [] then []
  else text.take (tokenLength text) :: tokens (text.drop (tokenLength text))
termination_by text.length
decreasing_by
  have hpos : 0 < text.length := List.length_pos_iff.mpr ‹_›
  simp only [tokenLength, kTagReplacementSize, List.length_drop]
  split <;> omega

def isTag (tag : UInt16) (token : List QChar) : Bool :=
  (langTag token).any fun found => found.toNat = 0x0020 + tag.toNat

/-- Each character that starts commands starts a complete one. -/
def CompleteCommands (text : List QChar) : Prop := ∀ token ∈ tokens text, token ≠ [textCommand]

variable {tag : UInt16} {text token rest replacement : List QChar} {position n : Nat}
  {before after : List (List QChar)}

theorem langTag_take (text : List QChar) (n : Nat) :
    langTag (text.take n) = if 4 ≤ n then langTag text else none := by
  rcases text with _ | ⟨a, _ | ⟨b, _ | ⟨c, _ | ⟨d, text⟩⟩⟩⟩
  · simp [langTag]
  all_goals rcases n with _ | _ | _ | _ | n <;> simp [langTag]

theorem length_of_langTag {found : QChar} (h : langTag text = some found) : 4 ≤ text.length := by
  rcases text with _ | ⟨a, _ | ⟨b, _ | ⟨c, _ | ⟨d, text⟩⟩⟩⟩
  all_goals simp [langTag] at h ⊢

theorem langTag_append (h : 4 ≤ token.length) : langTag (token ++ rest) = langTag token := by
  have htake := langTag_take (token ++ rest) token.length
  rw [List.take_left' rfl, if_pos h] at htake
  exact htake.symm

theorem tokenLength_pos (text : List QChar) : 0 < tokenLength text := by
  rw [tokenLength, kTagReplacementSize]
  split <;> omega

theorem tokenLength_le (h : text ≠ []) : tokenLength text ≤ text.length := by
  have hskip := @textSkipCommand_le true text
  have hpos : 0 < text.length := List.length_pos_iff.mpr h
  rw [tokenLength]
  split
  next htag =>
    obtain ⟨found, hfound⟩ := Option.isSome_iff_exists.mp htag
    exact length_of_langTag hfound
  · omega

theorem langTag_token (text : List QChar) :
    langTag (text.take (tokenLength text)) = langTag text := by
  rw [langTag_take, tokenLength]
  cases hfound : langTag text with
  | none => simp
  | some found => simp [kTagReplacementSize]

theorem tokens_nil : tokens [] = [] := by
  rw [tokens, if_pos rfl]

theorem tokens_of_ne (h : text ≠ []) :
    tokens text = text.take (tokenLength text) :: tokens (text.drop (tokenLength text)) := by
  rw [tokens, if_neg h]

theorem tokens_induction {motive : List QChar → Prop} (hnil : motive [])
    (hcons : ∀ text, text ≠ [] → motive (text.drop (tokenLength text)) → motive text)
    (text : List QChar) : motive text := by
  induction hn : text.length using Nat.strong_induction_on generalizing text with
  | _ n ih =>
    by_cases htext : text = []
    · rwa [htext]
    · apply hcons text htext
      have hlength : 0 < text.length := List.length_pos_iff.mpr htext
      have hpos := tokenLength_pos text
      exact ih _ (by rw [List.length_drop]; omega) _ rfl

theorem flatten_tokens (text : List QChar) : (tokens text).flatten = text := by
  induction text using tokens_induction with
  | hnil => rw [tokens_nil, List.flatten_nil]
  | hcons text htext ih =>
    rw [tokens_of_ne htext, List.flatten_cons, ih, List.take_append_drop]

theorem findTagReplacementPosition_of_ne (h : text ≠ []) :
    findTagReplacementPosition tag position text =
      if isTag tag (text.take (tokenLength text)) then some position
      else findTagReplacementPosition tag (position + tokenLength text)
        (text.drop (tokenLength text)) := by
  rw [findTagReplacementPosition, if_neg h, isTag, langTag_token, tokenLength]
  cases hfound : langTag text with
  | some found => simp
  | none =>
    by_cases hskip : textSkipCommand true text = 0
    · simp [hskip]
    · have hmax : max 1 (textSkipCommand true text) = textSkipCommand true text := by omega
      simp [hskip, hmax]

theorem findTagReplacementPosition_none (h : ∀ token ∈ tokens text, ¬ isTag tag token) :
    findTagReplacementPosition tag position text = none := by
  induction text using tokens_induction generalizing position with
  | hnil =>
    rw [findTagReplacementPosition, if_pos rfl]
  | hcons text htext ih =>
    rw [tokens_of_ne htext, List.forall_mem_cons] at h
    rw [findTagReplacementPosition_of_ne htext, if_neg h.1, ih h.2]

theorem findTagReplacementPosition_some (htokens : tokens text = before ++ token :: after)
    (hbefore : ∀ other ∈ before, ¬ isTag tag other) (htoken : isTag tag token) :
    findTagReplacementPosition tag position text = some (position + before.flatten.length) := by
  induction before generalizing text position with
  | nil =>
    have htext : text ≠ [] := by
      intro hnil
      rw [hnil, tokens_nil] at htokens
      cases htokens
    rw [tokens_of_ne htext, List.nil_append, List.cons.injEq] at htokens
    rw [findTagReplacementPosition_of_ne htext, htokens.1, if_pos htoken]
    simp
  | cons other before ih =>
    have htext : text ≠ [] := by
      intro hnil
      rw [hnil, tokens_nil] at htokens
      cases htokens
    rw [List.forall_mem_cons] at hbefore
    rw [tokens_of_ne htext, List.cons_append, List.cons.injEq] at htokens
    have hlength : other.length = tokenLength text := by
      rw [← htokens.1, List.length_take, Nat.min_eq_left (tokenLength_le htext)]
    rw [findTagReplacementPosition_of_ne htext, htokens.1, if_neg hbefore.1,
      ih htokens.2 hbefore.2, List.flatten_cons, List.length_append, hlength, Nat.add_assoc]

theorem isTag_length (h : isTag tag token) (hmem : token ∈ tokens text) :
    token.length = kTagReplacementSize := by
  induction text using tokens_induction with
  | hnil =>
    rw [tokens_nil] at hmem
    cases hmem
  | hcons text htext ih =>
    rw [tokens_of_ne htext, List.mem_cons] at hmem
    cases hmem with
    | inl heq =>
      obtain ⟨found, hfound, -⟩ := Option.any_eq_true .. |>.mp h
      rw [heq, langTag_token] at hfound
      rw [heq, List.length_take, Nat.min_eq_left (tokenLength_le htext), tokenLength, hfound]
      rfl
    | inr hrest => exact ih hrest

theorem replace_eq (original replacement : List QChar) (n : Nat) :
    replace original replacement n =
      original.take n ++ replacement ++ original.drop (n + kTagReplacementSize) := by
  have hstart : (if n > 0 then original.take n else []) = original.take n := by
    split
    · rfl
    next hzero =>
      obtain rfl : n = 0 := by omega
      rfl
  have hrest : (if n + kTagReplacementSize < original.length then
      original.drop (n + kTagReplacementSize) else []) =
        original.drop (n + kTagReplacementSize) := by
    split
    · rfl
    next hend => exact (List.drop_eq_nil_of_le (by omega)).symm
  rw [replace]
  simp only [hstart, hrest]

theorem replace_tokens (replacement : List QChar) (htokens : tokens text = before ++ token :: after)
    (hlength : token.length = kTagReplacementSize) :
    replace text replacement before.flatten.length =
      before.flatten ++ replacement ++ after.flatten := by
  have htext : text = before.flatten ++ (token ++ after.flatten) := by
    rw [← flatten_tokens text, htokens, List.flatten_append, List.flatten_cons]
  rw [replace_eq, htext, List.take_left' rfl, ← hlength, ← List.append_assoc,
    List.drop_left' (by rw [List.length_append])]

/-! ### Tags replaced one after the other -/

/-- The token is one in front of any other text too. -/
def Separate (token : List QChar) : Prop :=
  token ≠ [] ∧ ∀ rest, tokenLength (token ++ rest) = token.length

theorem langTag_of_textSkipCommand (h : textSkipCommand true text = 3) :
    langTag (text.take 3 ++ rest) = none := by
  rcases text with _ | ⟨ch, _ | ⟨cmd, _ | ⟨first, text⟩⟩⟩
  · cases h
  · cases h
  · cases h
  · have hcmd : cmd ≠ textCommandLangTag := by
      rintro rfl
      rw [textSkipCommand, commandParameters] at h
      simp only [textCommandLinkIndex, textCommandLinkText, textCommandSkipBlock,
        textCommandLangTag] at h
      split at h
      · cases h
      · have hcases : (if text[0]? = some textCommand then 4 else 0) = 3 := by simpa using h
        split at hcases <;> cases hcases
    rcases rest with _ | ⟨d, rest⟩
    · rfl
    · simp [langTag, hcmd]

theorem separate_of_mem (hmem : token ∈ tokens text) (hcomplete : token ≠ [textCommand]) :
    Separate token := by
  induction text using tokens_induction with
  | hnil =>
    rw [tokens_nil] at hmem
    cases hmem
  | hcons text htext ih =>
    rw [tokens_of_ne htext, List.mem_cons] at hmem
    cases hmem with
    | inr hrest => exact ih hrest
    | inl heq =>
      have hpos := tokenLength_pos text
      have hlength : token.length = tokenLength text := by
        rw [heq, List.length_take, Nat.min_eq_left (tokenLength_le htext)]
      refine ⟨List.ne_nil_of_length_pos (by omega), ?_⟩
      intro rest
      rw [hlength]
      cases hfound : langTag text with
      | some found =>
        have hfour : tokenLength text = 4 := by
          rw [tokenLength, hfound]
          rfl
        have htag : langTag (token ++ rest) = some found := by
          rw [langTag_append (by omega), heq, langTag_token, hfound]
        rw [hfour, tokenLength, htag]
        rfl
      | none =>
        have hskip : tokenLength text = max 1 (textSkipCommand true text) := by
          rw [tokenLength, hfound]
          rfl
        by_cases hzero : textSkipCommand true text = 0
        · -- a single character, which does not start commands
          rw [hzero] at hskip
          obtain ⟨ch, text, rfl⟩ := List.exists_cons_of_ne_nil htext
          obtain rfl : token = [ch] := by
            rw [heq, hskip]
            rfl
          have hch : ch ≠ textCommand := fun h => hcomplete (by rw [h])
          have hnone : langTag ([ch] ++ rest) = none := by
            rcases rest with _ | ⟨b, _ | ⟨c, _ | ⟨d, rest⟩⟩⟩
            all_goals simp [langTag, hch]
          rw [hskip, tokenLength, hnone, List.singleton_append, textSkipCommand_of_ne hch]
          rfl
        · have hsome : tokenLength text = textSkipCommand true text := by omega
          obtain ⟨hthree, hle, -, hlocal⟩ := textSkipCommand_spec (Nat.pos_of_ne_zero hzero)
          have hskip' := hlocal rest
          rw [← hsome, ← heq] at hskip'
          rw [hsome, tokenLength, hskip', hsome]
          have hnone : langTag (token ++ rest) = none := by
            by_cases hthree' : textSkipCommand true text = 3
            · have hshort := @langTag_of_textSkipCommand text rest hthree'
              rwa [← hthree', ← hsome, ← heq] at hshort
            · rw [langTag_append (by omega), heq, langTag_token, hfound]
          rw [hnone]
          simp
          omega

theorem tokens_separate_append (h : Separate token) : tokens (token ++ rest) = token :: tokens rest := by
  have hne : token ++ rest ≠ [] := by
    intro hnil
    exact h.1 (List.append_eq_nil_iff.mp hnil).1
  rw [tokens_of_ne hne, h.2, List.take_left' rfl, List.drop_left' rfl]

theorem tokens_flatten {separate : List (List QChar)} (h : ∀ token ∈ separate, Separate token) :
    tokens separate.flatten = separate := by
  induction separate with
  | nil => exact tokens_nil
  | cons token separate ih =>
    rw [List.forall_mem_cons] at h
    rw [List.flatten_cons, tokens_separate_append h.1, ih h.2]

def replaceTagText (original : List QChar) (tag : UInt16) (replacement : List QChar) : List QChar :=
  (findTagReplacementPosition tag 0 original).elim original (replace original replacement)

theorem flatten_map_singleton (r : List QChar) : (r.map ([·])).flatten = r := by
  induction r with
  | nil => rfl
  | cons ch r ih => rw [List.map_cons, List.flatten_cons, ih, List.singleton_append]

theorem tokens_replaceTagText (tag : UInt16) (hcomplete : CompleteCommands text)
    (hplain : textCommand ∉ replacement) :
    tokens (replaceTagText text tag replacement) =
        replaceFirst (isTag tag) (replacement.map ([·])) (tokens text) ∧
      CompleteCommands (replaceTagText text tag replacement) := by
  have hseparate : ∀ token ∈ tokens text, Separate token :=
    fun token hmem => separate_of_mem hmem (hcomplete token hmem)
  have hsingle : ∀ token ∈ replacement.map ([·]), Separate token ∧ token ≠ [textCommand] := by
    intro token hmem
    obtain ⟨ch, hch, rfl⟩ := List.mem_map.mp hmem
    have hne : [ch] ≠ [textCommand] := by
      intro heq
      cases heq
      exact hplain hch
    refine ⟨@separate_of_mem [ch] [ch] ?_ hne, hne⟩
    rw [tokens_of_ne (List.cons_ne_nil ch []), List.mem_cons]
    left
    exact (List.take_of_length_le (tokenLength_pos [ch])).symm
  by_cases htag : ∃ token ∈ tokens text, isTag tag token
  · obtain ⟨token', hmem', htag'⟩ := htag
    obtain ⟨token, before, after, hbefore, htoken, htokens, -⟩ :=
      List.exists_of_eraseP hmem' htag'
    have hmem : token ∈ tokens text := by
      rw [htokens]
      simp
    have hlength := isTag_length htoken hmem
    have hresult : replaceTagText text tag replacement =
        (before ++ (replacement.map ([·]) ++ after)).flatten := by
      rw [replaceTagText, findTagReplacementPosition_some htokens hbefore htoken, Nat.zero_add,
        Option.elim_some, replace_tokens replacement htokens hlength, List.flatten_append,
        List.flatten_append, flatten_map_singleton, List.append_assoc]
    have hall : tokens (replaceTagText text tag replacement) =
        before ++ (replacement.map ([·]) ++ after) := by
      rw [hresult]
      apply tokens_flatten
      intro other hother
      rw [List.mem_append, List.mem_append] at hother
      rcases hother with hin | hin | hin
      · exact hseparate other (by rw [htokens]; simp [hin])
      · exact (hsingle other hin).1
      · exact hseparate other (by rw [htokens]; simp [hin])
    constructor
    · rw [hall, htokens, replaceFirst_append hbefore, replaceFirst_cons htoken]
    · intro other hother
      rw [hall, List.mem_append, List.mem_append] at hother
      rcases hother with hin | hin | hin
      · exact hcomplete other (by rw [htokens]; simp [hin])
      · exact (hsingle other hin).2
      · exact hcomplete other (by rw [htokens]; simp [hin])
  · have hnone : ∀ token ∈ tokens text, ¬ isTag tag token :=
      fun token hmem htoken => htag ⟨token, hmem, htoken⟩
    have hsame : replaceTagText text tag replacement = text := by
      rw [replaceTagText, findTagReplacementPosition_none hnone]
      rfl
    have hkept := @replaceFirst_append _ _ (replacement.map ([·])) _ [] hnone
    rw [List.append_nil] at hkept
    rw [hsame, hkept, replaceFirst, List.append_nil]
    exact ⟨rfl, hcomplete⟩

theorem replaceTagText_comm {tag' : UInt16} {replacement' : List QChar}
    (hcomplete : CompleteCommands text) (htags : tag ≠ tag')
    (hplain : textCommand ∉ replacement) (hplain' : textCommand ∉ replacement') :
    replaceTagText (replaceTagText text tag replacement) tag' replacement' =
      replaceTagText (replaceTagText text tag' replacement') tag replacement := by
  have hdisjoint : ∀ token, isTag tag token → ¬ isTag tag' token := by
    intro token htoken htoken'
    simp only [isTag, Option.any_eq_true, decide_eq_true_eq] at htoken htoken'
    obtain ⟨found, hfound, hnat⟩ := htoken
    obtain ⟨found', hfound', hnat'⟩ := htoken'
    rw [hfound, Option.some.injEq] at hfound'
    subst hfound'
    apply htags
    rw [← UInt16.toNat_inj]
    omega
  have hno : ∀ (r : List QChar) (tag : UInt16), ∀ token ∈ r.map ([·]), ¬ isTag tag token := by
    intro r tag token hmem
    obtain ⟨ch, -, rfl⟩ := List.mem_map.mp hmem
    simp [isTag, langTag]
  obtain ⟨htokens, hcomplete₁⟩ := tokens_replaceTagText tag hcomplete hplain
  obtain ⟨htokens', hcomplete₁'⟩ := tokens_replaceTagText tag' hcomplete hplain'
  rw [← flatten_tokens (replaceTagText (replaceTagText text tag replacement) tag' replacement'),
    ← flatten_tokens (replaceTagText (replaceTagText text tag' replacement') tag replacement),
    (tokens_replaceTagText tag' hcomplete₁ hplain').1,
    (tokens_replaceTagText tag hcomplete₁' hplain).1,
    htokens, htokens', replaceFirst_comm hdisjoint (hno _ _) (hno _ _)]

theorem replaceTag_text (original : TextWithEntities) (tag : UInt16)
    (replacement : TextWithEntities) :
    (replaceTag original tag replacement).text =
      replaceTagText original.text tag replacement.text := by
  rw [replaceTag, replaceTagText]
  cases findTagReplacementPosition tag 0 original.text <;> rfl

/-! ### The entities -/

/-- The entities are in the text, and sorted by where they start. -/
structure TextWithEntities.Sorted (t : TextWithEntities) : Prop where
  inside : ∀ entity ∈ t.entities, 0 ≤ entity.offset ∧ 0 ≤ entity.length ∧
    entity.offset + entity.length ≤ t.text.length
  sorted : t.entities.Pairwise fun a b => a.offset ≤ b.offset

/-- A character is in the image of another one when the tag at a position was replaced. The image
of the characters of the tag is the whole replacement. -/
def IsImage (replacementPosition replacementSize : Nat) (q i : Int) : Prop :=
  q < replacementPosition ∧ i = q ∨
    (replacementPosition ≤ q ∧ q < replacementPosition + kTagReplacementSize) ∧
      (replacementPosition ≤ i ∧ i < replacementPosition + replacementSize) ∨
    replacementPosition + kTagReplacementSize ≤ q ∧ i = q + replacementSize - kTagReplacementSize

def CoversReplaced (replacementPosition replacementSize : Nat) (raw entity : EntityInText) : Prop :=
  raw.SameKind entity ∧ ∀ i, entity.Covers i ↔
    ∃ q, raw.Covers q ∧ IsImage replacementPosition replacementSize q i

def CoversShifted (replacementPosition : Nat) (raw entity : EntityInText) : Prop :=
  raw.SameKind entity ∧ ∀ i, entity.Covers i ↔ raw.Covers (i - replacementPosition)

/-- No border of the entity is inside the tag. -/
def EntityInText.KeepsTag (entity : EntityInText) (replacementPosition : Nat) : Prop :=
  ∀ border, border = entity.offset ∨ border = entity.offset + entity.length →
    border ≤ replacementPosition ∨ replacementPosition + kTagReplacementSize ≤ border

/-- An entity of the original when the tag is replaced. -/
def EntityInText.stretched (entity : EntityInText) (P R N : Int) : EntityInText :=
  { entity with
    offset := transformed P R N entity.offset
    length := transformed P R N (entity.offset + entity.length) - transformed P R N entity.offset }

/-- An entity of the replacement at its new place. -/
def EntityInText.placed (entity : EntityInText) (P E : Int) : EntityInText :=
  { entity with
    offset := snap (P + entity.offset) P E
    length := snap (P + entity.offset + entity.length) P E - snap (P + entity.offset) P E }

/-- Whether there is anything in the entity. -/
def EntityInText.isNonempty (entity : EntityInText) : Bool := entity.length ≠ 0

variable {P R N E until_ : Int} {entity : EntityInText} {originals reps : List EntityInText}

theorem snap_of_mem {v min max : Int} (hmin : min ≤ v) (hmax : v ≤ max) : snap v min max = v := by
  rw [snap, if_neg (by omega), if_neg (by omega)]

theorem filter_isNonempty (entity : EntityInText) :
    [entity].filter (·.isNonempty) = if entity.length ≠ 0 then [entity] else [] := by
  by_cases h : entity.length = 0
  · simp [EntityInText.isNonempty, h]
  · simp [EntityInText.isNonempty, h]

theorem addReplacementEntity_eq :
    addReplacementEntity P E entity = [entity.placed P E].filter (·.isNonempty) := by
  rw [filter_isNonempty]
  rfl

theorem addReplacementEntitiesUntil_spec (hsorted : reps.Pairwise fun a b => a.offset ≤ b.offset) :
    ∃ firsts lasts, reps = firsts ++ lasts ∧
      addReplacementEntitiesUntil P E until_ reps =
        ((firsts.map (·.placed P E)).filter (·.isNonempty), lasts) ∧
      (∀ first ∈ firsts, P + first.offset < until_) ∧ ∀ last ∈ lasts, until_ ≤ P + last.offset := by
  induction reps with
  | nil => exact ⟨[], [], rfl, rfl, by simp, by simp⟩
  | cons rep reps ih =>
    rw [List.pairwise_cons] at hsorted
    rw [addReplacementEntitiesUntil]
    by_cases hge : P + rep.offset ≥ until_
    · rw [if_pos hge]
      refine ⟨[], rep :: reps, rfl, rfl, by simp, ?_⟩
      rw [List.forall_mem_cons]
      refine ⟨hge, ?_⟩
      intro last hlast
      have hle := hsorted.1 last hlast
      omega
    · obtain ⟨firsts, lasts, rfl, hrun, hfirsts, hlasts⟩ := ih hsorted.2
      have hfilter : ((rep :: firsts).map (·.placed P E)).filter (·.isNonempty) =
          addReplacementEntity P E rep ++
            (firsts.map (·.placed P E)).filter (·.isNonempty) := by
        rw [addReplacementEntity_eq, ← List.filter_append, List.singleton_append, List.map_cons]
      rw [if_neg hge, hrun]
      refine ⟨rep :: firsts, lasts, rfl, by rw [hfilter], ?_, hlasts⟩
      rw [List.forall_mem_cons]
      exact ⟨by omega, hfirsts⟩

theorem replaceEntities_cons (original : EntityInText) (originals reps : List EntityInText) :
    replaceEntities P R N (original :: originals) reps =
      (addReplacementEntitiesUntil P (P + R) (transformed P R N original.offset) reps).1 ++
        [original.stretched P R N].filter (·.isNonempty) ++
        replaceEntities P R N originals
          (addReplacementEntitiesUntil P (P + R) (transformed P R N original.offset) reps).2 := by
  rw [replaceEntities, filter_isNonempty]
  rfl

theorem replaceEntities_perm (hsorted : reps.Pairwise fun a b => a.offset ≤ b.offset)
    (hend : ∀ rep ∈ reps, N ≤ P + rep.offset → ¬ (rep.placed P (P + R)).isNonempty) :
    (replaceEntities P R N originals reps).Perm
      ((originals.map (·.stretched P R N)).filter (·.isNonempty) ++
        (reps.map (·.placed P (P + R))).filter (·.isNonempty)) := by
  induction originals generalizing reps with
  | nil =>
    obtain ⟨firsts, lasts, rfl, hrun, -, hlasts⟩ :=
      @addReplacementEntitiesUntil_spec P (P + R) N reps hsorted
    have hnone : (lasts.map (·.placed P (P + R))).filter (·.isNonempty) = [] := by
      rw [List.filter_eq_nil_iff]
      intro placed hplaced
      obtain ⟨last, hlast, rfl⟩ := List.mem_map.mp hplaced
      exact hend last (List.mem_append_right _ hlast) (hlasts last hlast)
    rw [replaceEntities, hrun, List.map_append, List.filter_append, hnone]
    simp
  | cons original originals ih =>
    obtain ⟨firsts, lasts, rfl, hrun, -, -⟩ :=
      @addReplacementEntitiesUntil_spec P (P + R) (transformed P R N original.offset) reps hsorted
    have hrest := ih (List.pairwise_append.mp hsorted).2.1
      fun rep hrep => hend rep (List.mem_append_right _ hrep)
    have hsplit : ((original :: originals).map (·.stretched P R N)).filter (·.isNonempty) =
        [original.stretched P R N].filter (·.isNonempty) ++
          (originals.map (·.stretched P R N)).filter (·.isNonempty) := by
      rw [← List.filter_append, List.singleton_append, List.map_cons]
    rw [replaceEntities_cons, hrun, hsplit, List.map_append, List.filter_append]
    refine (hrest.append_left _).trans ?_
    rw [List.append_assoc, ← List.append_assoc ([original.stretched P R N].filter _)]
    exact List.perm_append_comm_assoc _ _ _

theorem replaceEntities_sorted
    (horiginals : originals.Pairwise fun a b =>
      transformed P R N a.offset ≤ transformed P R N b.offset)
    (hsorted : reps.Pairwise fun a b => a.offset ≤ b.offset)
    (hplaced : ∀ rep ∈ reps, snap (P + rep.offset) P (P + R) = P + rep.offset)
    (hend : ∀ rep ∈ reps, N ≤ P + rep.offset → ¬ (rep.placed P (P + R)).isNonempty) :
    (replaceEntities P R N originals reps).Pairwise fun a b => a.offset ≤ b.offset := by
  have hfirsts : ∀ firsts : List EntityInText,
      (∀ rep ∈ firsts, snap (P + rep.offset) P (P + R) = P + rep.offset) →
      firsts.Pairwise (fun a b => a.offset ≤ b.offset) →
      ((firsts.map (·.placed P (P + R))).filter (·.isNonempty)).Pairwise
        fun a b => a.offset ≤ b.offset := by
    intro firsts hsnap hfirsts
    apply List.Pairwise.filter
    rw [List.pairwise_map]
    refine hfirsts.imp_of_mem ?_
    intro a b ha hb hab
    show snap (P + a.offset) P (P + R) ≤ snap (P + b.offset) P (P + R)
    rw [hsnap a ha, hsnap b hb]
    omega
  induction originals generalizing reps with
  | nil =>
    obtain ⟨firsts, lasts, rfl, hrun, -, -⟩ :=
      @addReplacementEntitiesUntil_spec P (P + R) N reps hsorted
    rw [replaceEntities, hrun]
    exact hfirsts firsts (fun rep hrep => hplaced rep (List.mem_append_left _ hrep))
      (List.pairwise_append.mp hsorted).1
  | cons original originals ih =>
    obtain ⟨firsts, lasts, rfl, hrun, hbefore, hbehind⟩ :=
      @addReplacementEntitiesUntil_spec P (P + R) (transformed P R N original.offset) reps hsorted
    rw [List.pairwise_cons] at horiginals
    obtain ⟨hsortedFirsts, hsortedLasts, -⟩ := List.pairwise_append.mp hsorted
    have hplacedLasts := fun rep hrep => hplaced rep (List.mem_append_right firsts hrep)
    have hendLasts := fun rep hrep => hend rep (List.mem_append_right firsts hrep)
    have hrest := ih horiginals.2 hsortedLasts hplacedLasts hendLasts
    have hperm := @replaceEntities_perm P R N originals lasts hsortedLasts hendLasts
    have hlower : ∀ entity ∈ replaceEntities P R N originals lasts,
        transformed P R N original.offset ≤ entity.offset := by
      intro entity hmem
      rw [hperm.mem_iff, List.mem_append, List.mem_filter, List.mem_filter] at hmem
      rcases hmem with ⟨hmem, -⟩ | ⟨hmem, -⟩
      · obtain ⟨other, hother, rfl⟩ := List.mem_map.mp hmem
        exact horiginals.1 other hother
      · obtain ⟨last, hlast, rfl⟩ := List.mem_map.mp hmem
        show _ ≤ snap (P + last.offset) P (P + R)
        rw [hplacedLasts last hlast]
        exact hbehind last hlast
    have hupper : ∀ entity ∈ (firsts.map (·.placed P (P + R))).filter (·.isNonempty),
        entity.offset < transformed P R N original.offset := by
      intro entity hmem
      obtain ⟨first, hfirst, rfl⟩ := List.mem_map.mp (List.mem_filter.mp hmem).1
      show snap (P + first.offset) P (P + R) < _
      rw [hplaced first (List.mem_append_left _ hfirst)]
      exact hbefore first hfirst
    have hmiddle : ∀ entity ∈ [original.stretched P R N].filter (·.isNonempty),
        entity.offset = transformed P R N original.offset := by
      intro entity hmem
      rw [List.mem_singleton.mp (List.mem_filter.mp hmem).1]
      rfl
    rw [replaceEntities_cons, hrun]
    rw [List.append_assoc, List.pairwise_append, List.pairwise_append]
    refine ⟨hfirsts firsts (fun rep hrep => hplaced rep (List.mem_append_left _ hrep))
      hsortedFirsts, ⟨(List.pairwise_singleton _ _).filter _, hrest, ?_⟩, ?_⟩
    · intro a ha b hb
      rw [hmiddle a ha]
      exact hlower b hb
    · intro a ha b hb
      have hlt := hupper a ha
      rcases List.mem_append.mp hb with hb | hb
      · rw [hmiddle b hb]
        omega
      · have hle := hlower b hb
        omega

theorem transformed_eq {p r size : Nat} {border : Int} (hsize : p + kTagReplacementSize ≤ size)
    (hmin : 0 ≤ border) (hmax : border ≤ size)
    (hkeeps : border ≤ p ∨ p + kTagReplacementSize ≤ border) :
    transformed p r (size + r - kTagReplacementSize) border =
      if border > p then border + r - kTagReplacementSize else border := by
  simp only [kTagReplacementSize] at *
  rw [transformed, kTagReplacementSize]
  split
  · exact snap_of_mem (by omega) (by omega)
  · exact snap_of_mem (by omega) (by omega)

theorem stretched_covers {p r size : Nat} (hsize : p + kTagReplacementSize ≤ size)
    (hinside : 0 ≤ entity.offset ∧ 0 ≤ entity.length ∧ entity.offset + entity.length ≤ size)
    (hkeeps : entity.KeepsTag p) :
    CoversReplaced p r entity (entity.stretched p r (size + r - kTagReplacementSize)) := by
  obtain ⟨hoffset, hlength, hend⟩ := hinside
  have hstart := hkeeps _ (.inl rfl)
  have hfinish := hkeeps _ (.inr rfl)
  have hstart' := @transformed_eq p r size entity.offset hsize hoffset (by omega) hstart
  have hfinish' := @transformed_eq p r size _ hsize (show 0 ≤ entity.offset + entity.length by omega)
    hend hfinish
  refine ⟨⟨rfl, rfl⟩, ?_⟩
  intro i
  simp only [EntityInText.Covers, EntityInText.stretched, hstart', hfinish', IsImage,
    kTagReplacementSize] at *
  constructor
  · rintro ⟨hle, hlt⟩
    by_cases hbefore : i < p
    · refine ⟨i, ?_, .inl ⟨hbefore, rfl⟩⟩
      split_ifs at hle hlt <;> omega
    · by_cases hbehind : p + r ≤ i
      · refine ⟨i - r + 4, ?_, .inr (.inr (by omega))⟩
        split_ifs at hle hlt <;> omega
      · refine ⟨p, ?_, .inr (.inl (by omega))⟩
        split_ifs at hle hlt <;> omega
  · rintro ⟨q, ⟨hle, hlt⟩, himage⟩
    split_ifs <;> omega

theorem placed_covers {p r : Nat}
    (hinside : 0 ≤ entity.offset ∧ 0 ≤ entity.length ∧ entity.offset + entity.length ≤ r) :
    CoversShifted p entity (entity.placed p (p + r)) := by
  refine ⟨⟨rfl, rfl⟩, ?_⟩
  intro i
  simp only [EntityInText.Covers, EntityInText.placed]
  rw [snap_of_mem (by omega) (by omega), snap_of_mem (by omega) (by omega)]
  omega

/-- The entities of the result are the images of the original ones and the shifted ones of the
replacement, but for empty ones. -/
theorem replaceEntities_covers {p : Nat} {original replacement : TextWithEntities}
    (horiginal : original.Sorted) (hreplacement : replacement.Sorted)
    (hsize : p + kTagReplacementSize ≤ original.text.length)
    (hkeeps : ∀ entity ∈ original.entities, entity.KeepsTag p) :
    ∃ covered shifted,
      List.Forall₂ (CoversReplaced p replacement.text.length) original.entities covered ∧
      List.Forall₂ (CoversShifted p) replacement.entities shifted ∧
      (replaceEntities p replacement.text.length
        (original.text.length + replacement.text.length - kTagReplacementSize : Int)
        original.entities replacement.entities).Perm
          ((covered ++ shifted).filter (·.isNonempty)) ∧
      (replaceEntities p replacement.text.length
        (original.text.length + replacement.text.length - kTagReplacementSize : Int)
        original.entities replacement.entities).Pairwise fun a b => a.offset ≤ b.offset := by
  have hend : ∀ rep ∈ replacement.entities,
      (original.text.length + replacement.text.length - kTagReplacementSize : Int) ≤
        p + rep.offset → ¬ (rep.placed p (p + replacement.text.length)).isNonempty := by
    intro rep hrep hle
    have hinside := hreplacement.inside rep hrep
    rw [kTagReplacementSize] at hle hsize
    have hzero : (rep.placed p (p + replacement.text.length)).length = 0 := by
      simp only [EntityInText.placed]
      rw [snap_of_mem (by omega) (by omega), snap_of_mem (by omega) (by omega)]
      omega
    simp [EntityInText.isNonempty, hzero]
  refine ⟨original.entities.map (·.stretched p replacement.text.length
      (original.text.length + replacement.text.length - kTagReplacementSize : Int)),
    replacement.entities.map (·.placed p (p + replacement.text.length)), ?_, ?_,
    (replaceEntities_perm hreplacement.sorted hend).trans ?_,
    replaceEntities_sorted ?_ hreplacement.sorted ?_ hend⟩
  · rw [List.forall₂_map_right_iff, List.forall₂_same]
    intro entity hmem
    exact stretched_covers hsize (horiginal.inside entity hmem) (hkeeps entity hmem)
  · rw [List.forall₂_map_right_iff, List.forall₂_same]
    intro entity hmem
    exact placed_covers (hreplacement.inside entity hmem)
  · rw [List.filter_append]
  · refine horiginal.sorted.imp_of_mem ?_
    intro a b ha hb hab
    have hinside := horiginal.inside a ha
    have hinside' := horiginal.inside b hb
    rw [transformed_eq hsize hinside.1 (by omega) (hkeeps a ha _ (.inl rfl)),
      transformed_eq hsize hinside'.1 (by omega) (hkeeps b hb _ (.inl rfl))]
    have hkeep := hkeeps b hb _ (.inl rfl)
    simp only [kTagReplacementSize] at *
    split_ifs <;> omega
  · intro rep hrep
    have hinside := hreplacement.inside rep hrep
    exact snap_of_mem (by omega) (by omega)

/-- The first tag is replaced. Entities of the original cover the images of their characters, those
of the replacement their characters at the new place, and empty ones are dropped. Two tags may be
replaced in either order if all commands are complete. -/
theorem replaceTag_spec (original : TextWithEntities) (tag : UInt16)
    (replacement : TextWithEntities) (horiginal : original.Sorted)
    (hreplacement : replacement.Sorted) :
    ((∀ token ∈ tokens original.text, ¬ isTag tag token) →
        replaceTag original tag replacement = original) ∧
      (∀ before token after, tokens original.text = before ++ token :: after →
        (∀ other ∈ before, ¬ isTag tag other) → isTag tag token →
        (replaceTag original tag replacement).text =
            before.flatten ++ replacement.text ++ after.flatten ∧
          ((∀ entity ∈ original.entities, entity.KeepsTag before.flatten.length) →
            ∃ covered shifted,
              List.Forall₂ (CoversReplaced before.flatten.length replacement.text.length)
                original.entities covered ∧
              List.Forall₂ (CoversShifted before.flatten.length) replacement.entities shifted ∧
              (replaceTag original tag replacement).entities.Perm
                ((covered ++ shifted).filter (·.isNonempty)) ∧
              (replaceTag original tag replacement).entities.Pairwise
                fun a b => a.offset ≤ b.offset)) ∧
      ∀ tag' replacement', CompleteCommands original.text → tag ≠ tag' →
        textCommand ∉ replacement.text → textCommand ∉ replacement'.text →
        (replaceTag (replaceTag original tag replacement) tag' replacement').text =
          (replaceTag (replaceTag original tag' replacement') tag replacement).text := by
  refine ⟨?_, ?_, ?_⟩
  · intro hnone
    rw [replaceTag, findTagReplacementPosition_none hnone]
  · intro before token after htokens hbefore htoken
    have hmem : token ∈ tokens original.text := by
      rw [htokens]
      simp
    have hlength := isTag_length htoken hmem
    have hfound := @findTagReplacementPosition_some tag original.text token 0 before after htokens
      hbefore htoken
    rw [Nat.zero_add] at hfound
    have htext := replace_tokens replacement.text htokens hlength
    have hsize : original.text.length =
        before.flatten.length + kTagReplacementSize + after.flatten.length := by
      rw [← flatten_tokens original.text, htokens, List.flatten_append, List.flatten_cons,
        List.length_append, List.length_append, hlength, Nat.add_assoc]
    have hresult : ((before.flatten ++ replacement.text ++ after.flatten).length : Int) =
        original.text.length + replacement.text.length - kTagReplacementSize := by
      rw [List.length_append, List.length_append]
      omega
    have hreplaced : replaceTag original tag replacement =
        { text := before.flatten ++ replacement.text ++ after.flatten
          entities :=
            if original.entities.length ≠ 0 || replacement.entities.length ≠ 0 then
              replaceEntities before.flatten.length replacement.text.length
                (original.text.length + replacement.text.length - kTagReplacementSize : Int)
                original.entities replacement.entities
            else [] } := by
      rw [replaceTag, hfound]
      simp only [htext, hresult]
    rw [hreplaced]
    refine ⟨rfl, ?_⟩
    intro hkeeps
    by_cases hsome : original.entities.length ≠ 0 || replacement.entities.length ≠ 0
    · simp only [if_pos hsome]
      exact replaceEntities_covers horiginal hreplacement (by omega) hkeeps
    · obtain ⟨horiginal', hreplacement'⟩ : original.entities = [] ∧ replacement.entities = [] := by
        simpa using hsome
      simp only [horiginal', hreplacement']
      exact ⟨[], [], .nil, .nil, .refl _, .nil⟩
  · intro tag' replacement' hcomplete htags hplain hplain'
    rw [replaceTag_text, replaceTag_text, replaceTag_text, replaceTag_text]
    exact replaceTagText_comm hcomplete htags hplain hplain'

/-- The command of a link of one character is not complete in front of the two tags. It is when the
first of them was replaced by `"a"`, and then goes over the start of the second one. -/
theorem replaceTag_order :
    ¬ ∀ (original : TextWithEntities) (tag tag' : UInt16) (replacement replacement' :
      TextWithEntities), original.Sorted → tag ≠ tag' → textCommand ∉ replacement.text →
      textCommand ∉ replacement'.text →
      (replaceTag (replaceTag original tag replacement) tag' replacement').text =
        (replaceTag (replaceTag original tag' replacement') tag replacement).text := by
  intro h
  have horder := h ⟨[0x10, 0x0A, 0x01, 0x10, 0x20, 0x20, 0x10, 0x10, 0x20, 0x21, 0x10], []⟩ 0 1
    ⟨[0x61], []⟩ ⟨[0x62], []⟩ ⟨by simp, .nil⟩ (by decide) (by decide) (by decide)
  simp [replaceTag, replace, findTagReplacementPosition, langTag, textSkipCommand,
    commandParameters, kTagReplacementSize, textCommand, textCommandLangTag, textCommandLinkIndex,
    textCommandLinkText] at horder

/-- `"x{tag}"` in bold, replaced by `"yz"` with an italic `"z"`. -/
theorem replaceTag_spec_bold :
    (replaceTag ⟨[0x78, 0x10, 0x20, 0x20, 0x10], [⟨.bold, 0, 5, []⟩]⟩ 0
      ⟨[0x79, 0x7A], [⟨.italic, 1, 1, []⟩]⟩).text = [0x78, 0x79, 0x7A] := by
  have hspec := replaceTag_spec ⟨[0x78, 0x10, 0x20, 0x20, 0x10], [⟨.bold, 0, 5, []⟩]⟩ 0
    ⟨[0x79, 0x7A], [⟨.italic, 1, 1, []⟩]⟩ ⟨by simp, List.pairwise_singleton _ _⟩
    ⟨by simp, List.pairwise_singleton _ _⟩
  have htokens : tokens [0x78, 0x10, 0x20, 0x20, 0x10] =
      [[0x78]] ++ [0x10, 0x20, 0x20, 0x10] :: [] := by
    simp [tokens, tokenLength, langTag, textSkipCommand, kTagReplacementSize, textCommand,
      textCommandLangTag]
  exact (hspec.2.1 [[0x78]] [0x10, 0x20, 0x20, 0x10] [] htokens (by decide) (by decide)).1

end TelegramClient.Text
