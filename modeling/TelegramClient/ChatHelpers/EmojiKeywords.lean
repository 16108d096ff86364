import TelegramClient.Storage.DataStream
import TelegramClient.Lang.Instance

/-! Packs of emoji keywords (`chat_helpers/emoji_keywords.cpp`): the words of a language with the
emoji that they stand for, how differences change them, their cache and the queries. -/

namespace TelegramClient.ChatHelpers

open DataStream Lang Std

/-- The table of emoji and what Qt does with strings. -/
structure Environment (Emoji : Type) where
  find : QString → Option Emoji
  toLower : QString → QString
  trimmed : QString → QString

structure LangPackEmoji (Emoji : Type) where
  emoji : Emoji
  text : QString
  deriving DecidableEq

structure LangPackData (Emoji : Type) where
  version : Int32 := 0
  maxKeyLength : Nat := 0
  emoji : ExtTreeMap QString (List (LangPackEmoji Emoji)) compare := ∅

structure Result (Emoji : Type) where
  emoji : Emoji
  label : QString
  replacement : QString
  deriving DecidableEq

def kPostfix : UInt16 := 0xFE0F

def mustAddPostfix (text : QString) : Bool :=
  text ∈ [[(0x2122 : UInt16)], [0xA9], [0xAE]]

def skipExactKeyword (language word : QString) : Bool :=
  if word.length = 1 ∧ ∀ ch ∈ word, 0x30 ≤ ch ∧ ch ≤ 0x39 then true
  else if word = utf16 "10" then true
  else if language ≠ utf16 "en" then false
  else if word.length = 1 ∧ word ≠ utf16 "$" ∧ word ≠ [8364] then true
  else word.length = 2 ∧ word ∉ [utf16 "us", utf16 "uk", utf16 "hi", utf16 "ok"]

variable {Emoji : Type} (env : Environment Emoji)

def Environment.normalizeQuery (query : QString) : QString := env.toLower query

def Environment.normalizeKey (key : QString) : QString := env.trimmed (env.toLower key)

/-- The entry of a text, if its emoji is supported. -/
def Environment.entry (text : QString) : Option (LangPackEmoji Emoji) :=
  (env.find (if mustAddPostfix text then text ++ [kPostfix] else text)).map fun emoji =>
    ⟨emoji, text⟩

/-! ### Differences -/

inductive EmojiKeyword where
  | emojiKeyword (keyword : QString) (emoticons : List QString)
  | emojiKeywordDeleted (keyword : QString) (emoticons : List QString)
  deriving DecidableEq

abbrev Words (Emoji : Type) := ExtTreeMap QString (List (LangPackEmoji Emoji)) compare

def removeText (list : List (LangPackEmoji Emoji)) (text : QString) : List (LangPackEmoji Emoji) :=
  list.filter fun entry => entry.text ≠ text

def applyKeyword (emoji : Words Emoji) : EmojiKeyword → Words Emoji
  | .emojiKeyword keyword emoticons =>
    let word := env.normalizeKey keyword
    if word = [] then emoji
    else emoji.insert word (emoji[word]?.getD [] ++ emoticons.filterMap env.entry)
  | .emojiKeywordDeleted keyword emoticons =>
    let word := env.normalizeKey keyword
    if word = [] then emoji
    else
      match emoji[word]? with
      | none => emoji
      | some list =>
        let list := emoticons.foldl removeText list
        if list = [] then emoji.erase word else emoji.insert word list

def maxLength (keys : List QString) : Nat := keys.foldl (fun length key => max length key.length) 0

def applyDifference (data : LangPackData Emoji) (keywords : List EmojiKeyword) (version : Int32) :
    LangPackData Emoji :=
  let emoji := keywords.foldl (applyKeyword env) data.emoji
  ⟨version, maxLength emoji.keys, emoji⟩

/-! ### The cache -/

/-- The bytes that are written into the file. -/
def serialize (data : LangPackData Emoji) : List UInt8 :=
  writeInt32 data.version ++ writeInt32 (.ofNat data.emoji.size) ++
    data.emoji.toList.flatMap fun (key, list) =>
      writeString key ++ writeInt32 (.ofNat list.length) ++
        list.flatMap fun emoji => writeString emoji.text

/-- The file after `WriteLocalCache`, if it is opened. -/
def writeLocalCache (opened : Bool) (data : LangPackData Emoji) (file : Option (List UInt8)) :
    Option (List UInt8) :=
  if data.version = 0 && data.emoji.isEmpty then file
  else if opened then some (serialize data) else file

/-- The texts of a key, or none if the function is left. -/
def readTexts : Nat → Reader (List (LangPackEmoji Emoji))
  | 0 => return []
  | n + 1 => do
    let text ← readString
    let ok ← status
    stopUnless ok
    let entry ← StateT.lift (env.entry text)
    let list ← readTexts n
    return entry :: list

def readKeys : Nat → LangPackData Emoji → Reader (LangPackData Emoji)
  | 0, result => return result
  | n + 1, result => do
    let key ← readString
    let size ← readInt32
    let ok ← status
    stopUnless (ok && 0 ≤ size)
    let list ← readTexts env size.toInt.toNat
    readKeys n { result with
      emoji := result.emoji.insert key (result.emoji[key]?.getD [] ++ list)
      maxKeyLength := max result.maxKeyLength key.length }

def readData : Reader (LangPackData Emoji) := do
  let version ← readInt32
  let count ← readInt32
  let ok ← status
  stopUnless (ok && 0 ≤ version && 0 ≤ count)
  let result ← readKeys env count.toInt.toNat {}
  return { result with version := version }

/-- `ReadLocalCache` of a file, which is none when it is not opened. -/
def readLocalCache (file : Option (List UInt8)) : LangPackData Emoji :=
  match file with
  | none => {}
  | some bytes => ((readData env ⟨bytes, true⟩).map Prod.fst).getD {}

/-! ### Queries -/

section

variable [DecidableEq Emoji]

/-- The lazy range of `AppendFoundEmoji` asks for the emoji in the vector as the entries are
inserted. Those inserted by the same call are in it if the library appends them one by one. -/
def appendFoundEmoji (oneByOne : Bool) (result : List (Result Emoji)) (label : QString)
    (list : List (LangPackEmoji Emoji)) : List (Result Emoji) :=
  list.foldl (fun inserted entry =>
    if entry.emoji ∈ (if oneByOne then inserted else result).map Result.emoji then inserted
    else inserted ++ [⟨entry.emoji, label, entry.text⟩]) result

/-- The keys from `normalized` on, while they are chosen. -/
def chosen (data : LangPackData Emoji) (normalized : QString) (exact : Bool) :
    List (QString × List (LangPackEmoji Emoji)) :=
  (data.emoji.toList.dropWhile fun pair => compare pair.1 normalized = .lt).takeWhile fun pair =>
    if exact then pair.1 = normalized else normalized.isPrefixOf pair.1

def LangPackData.query (oneByOne : Bool) (id : QString) (data : LangPackData Emoji)
    (normalized : QString) (exact : Bool) : List (Result Emoji) :=
  if normalized.length > data.maxKeyLength || data.emoji.isEmpty ||
      (exact && skipExactKeyword id normalized) then []
  else (chosen data normalized exact).foldl
    (fun result pair => appendFoundEmoji oneByOne result pair.1 pair.2) []

end

end TelegramClient.ChatHelpers
