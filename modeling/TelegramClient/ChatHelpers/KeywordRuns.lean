import TelegramClient.ChatHelpers.KeywordQueries

/-! A pack through any differences, with its cache written and read in between. -/

namespace TelegramClient.ChatHelpers

open Lang

structure CachedPack (Emoji : Type) where
  data : LangPackData Emoji := {}
  file : Option (List UInt8) := none

/-- What happens to a pack. The file may be opened or not. -/
inductive PackStep where
  | difference (keywords : List EmojiKeyword) (version : Int32)
  | write (opened : Bool)
  | reload (opened : Bool)

variable {Emoji : Type} (env : Environment Emoji)

namespace CachedPack

def write (opened : Bool) (pack : CachedPack Emoji) : CachedPack Emoji :=
  { pack with file := writeLocalCache opened pack.data pack.file }

def step (pack : CachedPack Emoji) : PackStep → CachedPack Emoji
  | .difference keywords version =>
    { pack with data := applyDifference env pack.data keywords version }
  | .write opened => pack.write opened
  | .reload opened =>
    { pack.write opened with data := readLocalCache env (pack.write opened).file }

def run (pack : CachedPack Emoji) (steps : List PackStep) : CachedPack Emoji :=
  steps.foldl (step env) pack

/-- The cache has the pack when it is read. -/
def Keeps (pack : CachedPack Emoji) : PackStep → Prop
  | .difference _ _ | .write _ => True
  | .reload opened => pack.data.Fits ∧ pack.data.IsCached env opened pack.file

def KeepsAll : CachedPack Emoji → List PackStep → Prop
  | _, [] => True
  | pack, step :: steps => pack.Keeps env step ∧ KeepsAll (pack.step env step) steps

end CachedPack

/-- What a step does to the words: only differences change them. -/
def PackStep.attach (words : Set (QString × QString)) : PackStep → Set (QString × QString)
  | .difference keywords _ => keywords.foldl (ChatHelpers.attach env) words
  | .write _ | .reload _ => words

section

variable {env} {pack : CachedPack Emoji}

theorem reload_data {opened : Bool} (h : pack.data.WellFormed env)
    (hkeeps : pack.Keeps env (.reload opened)) :
    (pack.step env (.reload opened)).data = pack.data :=
  (readLocalCache_writeLocalCache_iff h hkeeps.1 opened pack.file).mpr hkeeps.2

theorem step_wellFormed (h : pack.data.WellFormed env) (step : PackStep) :
    (pack.step env step).data.WellFormed env := by
  cases step with
  | difference keywords version => exact applyDifference_wellFormed h keywords version
  | write opened => exact h
  | reload opened => exact readLocalCache_wellFormed _

theorem step_words (h : pack.data.WellFormed env) {step : PackStep}
    (hkeeps : pack.Keeps env step) :
    words (pack.step env step).data.emoji = step.attach env (words pack.data.emoji) := by
  cases step with
  | difference keywords version => exact words_applyDifference keywords version
  | write opened => rfl
  | reload opened => rw [reload_data h hkeeps, PackStep.attach]

theorem reached_wellFormed (h : pack.data.WellFormed env) (steps : List PackStep) :
    (pack.run env steps).data.WellFormed env := by
  induction steps generalizing pack with
  | nil => exact h
  | cons step steps ih => exact ih (step_wellFormed h step)

theorem run_words (h : pack.data.WellFormed env) {steps : List PackStep}
    (hkeeps : pack.KeepsAll env steps) :
    words (pack.run env steps).data.emoji =
      steps.foldl (PackStep.attach env) (words pack.data.emoji) := by
  induction steps generalizing pack with
  | nil => rfl
  | cons step steps ih =>
    have hrest := ih (step_wellFormed h step) hkeeps.2
    rw [step_words h hkeeps.1] at hrest
    exact hrest

variable [DecidableEq Emoji]

/-- In every run that keeps the pack in its cache, each query answers from the words that the
differences leave, if and only if the entries of a key are appended one by one or no key has an
emoji twice. And the cache gives the pack back if and only if it is in it. -/
theorem query_follows (h : pack.data.WellFormed env) {steps : List PackStep}
    (hkeeps : pack.KeepsAll env steps) (oneByOne : Bool) (id : QString) :
    ((∀ normalized exact, (exact && skipExactKeyword id normalized) = false →
      Answers env (steps.foldl (PackStep.attach env) (words pack.data.emoji)) normalized exact
        ((pack.run env steps).data.query oneByOne id normalized exact)) ↔
      oneByOne = true ∨ DistinctEmoji (pack.run env steps).data) ∧
    ((pack.run env steps).data.Fits → ∀ opened,
      ((pack.run env steps).step env (.reload opened)).data = (pack.run env steps).data ↔
        (pack.run env steps).data.IsCached env opened (pack.run env steps).file) := by
  have hwell := reached_wellFormed h steps
  constructor
  · rw [← run_words h hkeeps]
    exact answers_iff hwell oneByOne id
  · intro hfits opened
    exact readLocalCache_writeLocalCache_iff hwell hfits opened _

end

def grin : QString := [0xD83D, 0xDE00]

def oneEmoji : Environment Unit where
  find text := if text = grin then some () else none
  toLower text := text.map fun ch => if 0x41 ≤ ch ∧ ch ≤ 0x5A then ch + 32 else ch
  trimmed text := ((text.dropWhile (· = 0x20)).reverse.dropWhile (· = 0x20)).reverse

def grinTwice : PackStep := .difference [.emojiKeyword (utf16 "smile") [grin, grin]] 1

theorem query_follows_reload :
    Answers oneEmoji
      ([grinTwice, .reload true].foldl (PackStep.attach oneEmoji) (words (∅ : Words Unit)))
      (utf16 "smile") true
      ((({} : CachedPack Unit).run oneEmoji [grinTwice, .reload true]).data.query true
        (utf16 "de") (utf16 "smile") true) := by
  have hfits : ((({} : CachedPack Unit).step oneEmoji grinTwice).data).Fits := by
    constructor <;> decide +kernel
  have hcached : LangPackData.IsCached oneEmoji true
      (({} : CachedPack Unit).step oneEmoji grinTwice).data none := by
    rw [LangPackData.IsCached, if_pos (by decide +kernel)]
    decide
  have hkeeps : ({} : CachedPack Unit).KeepsAll oneEmoji [grinTwice, .reload true] :=
    ⟨trivial, ⟨hfits, hcached⟩, trivial⟩
  have hall := (@query_follows Unit oneEmoji {} _ wellFormed_empty _ hkeeps true (utf16 "de")).1
  exact hall.mpr (.inl rfl) (utf16 "smile") true (by decide)

/-- Where the entries of a key are not appended one by one, the emoji is found twice. -/
theorem grinTwice_repeats : ¬ ∀ (oneByOne : Bool) (steps : List PackStep),
    ({} : CachedPack Unit).KeepsAll oneEmoji steps → ∀ normalized exact,
      (exact && skipExactKeyword (utf16 "de") normalized) = false →
        Answers oneEmoji (steps.foldl (PackStep.attach oneEmoji) (words (∅ : Words Unit))) normalized exact
          ((({} : CachedPack Unit).run oneEmoji steps).data.query oneByOne (utf16 "de")
            normalized exact) := by
  intro h
  have honce := (h false [grinTwice] ⟨trivial, trivial⟩ (utf16 "smile") true (by decide)).once
  revert honce
  decide +kernel

end TelegramClient.ChatHelpers
