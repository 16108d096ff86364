import TelegramClient.ChatHelpers.EmojiKeywords

/-! What a pack of emoji keywords says: which texts stand for which keys, by the differences alone,
and that the map of the pack has the same. -/

namespace TelegramClient.ChatHelpers

open Lang Std

variable {Emoji : Type} (env : Environment Emoji)

/-- The list of a key, which is empty when there is none. -/
def entriesOf (emoji : Words Emoji) (key : QString) : List (LangPackEmoji Emoji) :=
  emoji[key]?.getD []

def words (emoji : Words Emoji) : Set (QString × QString) :=
  {pair | ∃ entry ∈ entriesOf emoji pair.1, entry.text = pair.2}

/-- The pairs that a keyword is about. -/
def EmojiKeyword.pairs : EmojiKeyword → Set (QString × QString)
  | .emojiKeyword keyword emoticons | .emojiKeywordDeleted keyword emoticons =>
    {pair | env.normalizeKey keyword ≠ [] ∧ pair.1 = env.normalizeKey keyword ∧ pair.2 ∈ emoticons}

/-- A keyword attaches its supported texts or removes its texts. -/
def attach (attached : Set (QString × QString)) (keyword : EmojiKeyword) :
    Set (QString × QString) :=
  match keyword with
  | .emojiKeyword _ _ => attached ∪ {pair ∈ keyword.pairs env | (env.entry pair.2).isSome}
  | .emojiKeywordDeleted _ _ => attached \ keyword.pairs env

/-- The entries are the supported texts with their emoji, and the length is that of the longest
key. -/
structure LangPackData.WellFormed (data : LangPackData Emoji) : Prop where
  entry_eq : ∀ key, ∀ e ∈ entriesOf data.emoji key, env.entry e.text = some e
  maxKeyLength_eq : data.maxKeyLength = maxLength data.emoji.keys

section

variable {env} {emoji : Words Emoji} {data : LangPackData Emoji} {key text : QString}
  {entry : LangPackEmoji Emoji} {list : List (LangPackEmoji Emoji)}

theorem entry_text (h : env.entry text = some entry) : entry.text = text := by
  obtain ⟨_, _, rfl⟩ := Option.map_eq_some_iff.mp h
  rfl

theorem entriesOf_of_some (h : emoji[key]? = some list) : entriesOf emoji key = list := by
  simp [entriesOf, h]

theorem entriesOf_insert (word : QString) :
    entriesOf (emoji.insert word list) key = if key = word then list else entriesOf emoji key := by
  by_cases hkey : key = word
  · simp [entriesOf, hkey]
  · simp [entriesOf, ExtTreeMap.getElem?_insert, hkey, Ne.symm hkey]

theorem entriesOf_erase (word : QString) :
    entriesOf (emoji.erase word) key = if key = word then [] else entriesOf emoji key := by
  by_cases hkey : key = word
  · simp [entriesOf, hkey]
  · simp [entriesOf, ExtTreeMap.getElem?_erase, hkey, Ne.symm hkey]

theorem foldl_removeText (emoticons : List QString) (list : List (LangPackEmoji Emoji)) :
    emoticons.foldl removeText list = list.filter fun entry => entry.text ∉ emoticons := by
  induction emoticons generalizing list with
  | nil => simp
  | cons text emoticons ih =>
    rw [List.foldl_cons, ih, removeText, List.filter_filter]
    apply List.filter_congr
    intro entry _
    simp [Bool.and_comm]

theorem entriesOf_emojiKeyword (keyword : QString) (emoticons : List QString) :
    entriesOf (applyKeyword env emoji (.emojiKeyword keyword emoticons)) key =
      if env.normalizeKey keyword ≠ [] ∧ key = env.normalizeKey keyword then
        entriesOf emoji key ++ emoticons.filterMap env.entry
      else entriesOf emoji key := by
  by_cases hword : env.normalizeKey keyword = []
  · simp [applyKeyword, hword]
  · simp only [applyKeyword, hword, if_false, entriesOf_insert, ne_eq, not_false_eq_true, true_and]
    by_cases hkey : key = env.normalizeKey keyword
    · simp [hkey, entriesOf]
    · simp [hkey]

theorem entriesOf_emojiKeywordDeleted (keyword : QString) (emoticons : List QString) :
    entriesOf (applyKeyword env emoji (.emojiKeywordDeleted keyword emoticons)) key =
      if env.normalizeKey keyword ≠ [] ∧ key = env.normalizeKey keyword then
        (entriesOf emoji key).filter fun entry => entry.text ∉ emoticons
      else entriesOf emoji key := by
  by_cases hword : env.normalizeKey keyword = []
  · simp [applyKeyword, hword]
  · simp only [applyKeyword, hword, if_false, ne_eq, not_false_eq_true, true_and, foldl_removeText]
    cases hlist : emoji[env.normalizeKey keyword]? with
    | none =>
      by_cases hkey : key = env.normalizeKey keyword
      · simp [hkey, entriesOf, hlist]
      · simp [hkey]
    | some list =>
      dsimp only
      split
      · next hnil =>
        rw [entriesOf_erase]
        by_cases hkey : key = env.normalizeKey keyword
        · rw [if_pos hkey, if_pos hkey, hkey, entriesOf_of_some hlist, hnil]
        · rw [if_neg hkey, if_neg hkey]
      · rw [entriesOf_insert]
        by_cases hkey : key = env.normalizeKey keyword
        · rw [if_pos hkey, if_pos hkey, hkey, entriesOf_of_some hlist]
        · rw [if_neg hkey, if_neg hkey]

theorem words_applyKeyword (keyword : EmojiKeyword) :
    words (applyKeyword env emoji keyword) = attach env (words emoji) keyword := by
  ext pair
  cases keyword with
  | emojiKeyword keyword emoticons =>
    show (∃ entry ∈ entriesOf _ pair.1, entry.text = pair.2) ↔
      (∃ entry ∈ entriesOf _ pair.1, entry.text = pair.2) ∨ (_ ∧ _ ∧ _) ∧ _
    rw [entriesOf_emojiKeyword]
    split
    · next h =>
      constructor
      · rintro ⟨entry, hmem, htext⟩
        cases List.mem_append.mp hmem with
        | inl hold => exact .inl ⟨entry, hold, htext⟩
        | inr hnew =>
          obtain ⟨text, hemoticon, hentry⟩ := List.mem_filterMap.mp hnew
          rw [← htext, entry_text hentry, hentry]
          exact .inr ⟨⟨h.1, h.2, hemoticon⟩, rfl⟩
      · rintro (⟨entry, hold, htext⟩ | ⟨⟨-, -, hemoticon⟩, hsome⟩)
        · exact ⟨entry, List.mem_append_left _ hold, htext⟩
        · obtain ⟨entry, hentry⟩ := Option.isSome_iff_exists.mp hsome
          exact ⟨entry, List.mem_append_right _ (List.mem_filterMap.mpr ⟨_, hemoticon, hentry⟩),
            entry_text hentry⟩
    · next h =>
      constructor
      · exact Or.inl
      · rintro (hold | ⟨⟨hword, hkey, -⟩, -⟩)
        · exact hold
        · exact absurd ⟨hword, hkey⟩ h
  | emojiKeywordDeleted keyword emoticons =>
    show (∃ entry ∈ entriesOf _ pair.1, entry.text = pair.2) ↔
      (∃ entry ∈ entriesOf _ pair.1, entry.text = pair.2) ∧ ¬(_ ∧ _ ∧ _)
    rw [entriesOf_emojiKeywordDeleted]
    split
    · next h =>
      constructor
      · rintro ⟨entry, hmem, htext⟩
        obtain ⟨hmem, hkept⟩ := List.mem_filter.mp hmem
        refine ⟨⟨entry, hmem, htext⟩, ?_⟩
        rintro ⟨-, -, hemoticon⟩
        rw [htext, decide_eq_true_eq] at hkept
        exact hkept hemoticon
      · rintro ⟨⟨entry, hmem, htext⟩, hkept⟩
        refine ⟨entry, List.mem_filter.mpr ⟨hmem, ?_⟩, htext⟩
        rw [htext, decide_eq_true_eq]
        exact fun hemoticon => hkept ⟨h.1, h.2, hemoticon⟩
    · next h => exact ⟨fun hold => ⟨hold, fun hpair => h ⟨hpair.1, hpair.2.1⟩⟩, And.left⟩

theorem words_applyDifference (keywords : List EmojiKeyword) (version : Int32) :
    words (applyDifference env data keywords version).emoji =
      keywords.foldl (attach env) (words data.emoji) := by
  show words (keywords.foldl (applyKeyword env) data.emoji) = _
  generalize data.emoji = emoji
  induction keywords generalizing emoji with
  | nil => rfl
  | cons keyword keywords ih => simp [ih, words_applyKeyword]

/-! ### The invariant -/

theorem wellFormed_empty : ({} : LangPackData Emoji).WellFormed env := by
  constructor
  · intro key e he
    cases he
  · rfl

theorem applyKeyword_entry_eq
    (h : ∀ key, ∀ e ∈ entriesOf emoji key, env.entry e.text = some e) (keyword : EmojiKeyword) :
    ∀ key, ∀ e ∈ entriesOf (applyKeyword env emoji keyword) key, env.entry e.text = some e := by
  intro key e he
  cases keyword with
  | emojiKeyword keyword emoticons =>
    rw [entriesOf_emojiKeyword] at he
    split at he
    · cases List.mem_append.mp he with
      | inl hold => exact h key e hold
      | inr hnew =>
        obtain ⟨text, -, hentry⟩ := List.mem_filterMap.mp hnew
        rw [entry_text hentry, hentry]
    · exact h key e he
  | emojiKeywordDeleted keyword emoticons =>
    rw [entriesOf_emojiKeywordDeleted] at he
    split at he
    · exact h key e (List.mem_of_mem_filter he)
    · exact h key e he

theorem applyDifference_wellFormed (h : data.WellFormed env) (keywords : List EmojiKeyword)
    (version : Int32) : (applyDifference env data keywords version).WellFormed env := by
  constructor
  · have hentry := h.entry_eq
    show ∀ key, ∀ e ∈ entriesOf (keywords.foldl (applyKeyword env) data.emoji) key, _
    generalize data.emoji = emoji at hentry
    induction keywords generalizing emoji with
    | nil => exact hentry
    | cons keyword keywords ih => exact ih _ (applyKeyword_entry_eq hentry keyword)
  · rfl

theorem foldl_max_le_iff {keys : List QString} {n m : Nat} :
    keys.foldl (fun length key => max length key.length) m ≤ n ↔
      m ≤ n ∧ ∀ key ∈ keys, key.length ≤ n := by
  induction keys generalizing m with
  | nil => simp
  | cons key keys ih => simp [ih, and_assoc]

theorem LangPackData.WellFormed.length_le (h : data.WellFormed env) (hkey : key ∈ data.emoji) :
    key.length ≤ data.maxKeyLength := by
  rw [h.maxKeyLength_eq]
  exact (foldl_max_le_iff.mp le_rfl).2 key (ExtTreeMap.mem_keys.mpr hkey)

end

end TelegramClient.ChatHelpers
