import Mathlib

/-! The parser of a value of a language pack (`ValueParser` of `lang_instance.cpp`). A tag in
braces is replaced by a text command. -/

namespace TelegramClient.Lang

/-- The UTF-16 code units of a `QString`. -/
abbrev QString := List UInt16

/-- What the build generates from the language file, for the keys `LangKey`, and the decoding
of Qt. A key has one name. -/
structure LangFile (LangKey : Type) where
  getKeyIndex : List UInt8 → Option LangKey
  getTagIndex : List UInt8 → Option UInt16
  isTagReplaced : LangKey → UInt16 → Bool
  getOriginalValue : LangKey → QString
  fromUtf8 : List UInt8 → QString
  isSpace : UInt16 → Bool
  getKeyIndex_injective : ∀ a b key, getKeyIndex a = some key → getKeyIndex b = some key → a = b
  fromUtf8_nil : fromUtf8 [] = []

def ascii (s : String) : List UInt8 :=
  s.toList.map fun c => .ofNat c.toNat

def textCommand : UInt16 := 0x0010

def textCommandLangTag : UInt16 := 0x0020

/-- The command a tag is replaced by. -/
def tagReplacer (tagIndex : UInt16) : QString :=
  [textCommand, textCommandLangTag, 0x0020 + tagIndex, textCommand]

def isTagChar (ch : UInt8) : Bool :=
  (0x61 ≤ ch && ch ≤ 0x7A) || (0x41 ≤ ch && ch ≤ 0x7A) || (0x30 ≤ ch && ch ≤ 0x39) || ch = 0x5F

variable {LangKey : Type} (g : LangFile LangKey)

/-- The tag at the start of the bytes and what is behind its closing brace. -/
def readTag (keyIndex : LangKey) (tagsUsed : List UInt16) (bytes : List UInt8) :
    Option (UInt16 × List UInt8) :=
  let currentTag := bytes.takeWhile isTagChar
  if currentTag = [] then none
  else
    match bytes.dropWhile isTagChar with
    | 0x7D :: rest =>
      match g.getTagIndex currentTag with
      | none => none
      | some index =>
        if !g.isTagReplaced keyIndex index then none
        else if index ∈ tagsUsed then none
        else some (index, rest)
    | _ => none

theorem readTag_length {keyIndex : LangKey} {tagsUsed : List UInt16} {bytes rest : List UInt8}
    {index : UInt16} (h : readTag g keyIndex tagsUsed bytes = some (index, rest)) :
    rest.length < bytes.length := by
  have hsuffix := (List.dropWhile_suffix isTagChar (l := bytes)).length_le
  simp only [readTag] at h
  split at h
  · cases h
  · split at h
    · rename_i tail hdrop
      rw [hdrop] at hsuffix
      simp only [List.length_cons] at hsuffix
      split at h
      · cases h
      · split at h
        · cases h
        · split at h
          · cases h
          · simp only [Option.some.injEq, Prod.mk.injEq] at h
            rw [← h.2]
            omega
    · cases h

/-- The bytes since the last replacement, decoded. -/
def appendToResult (piece : List UInt8) (result : QString) : QString :=
  if piece = [] then result else result ++ g.fromUtf8 piece

/-- `piece` are the bytes between `_begin` and `_ch`. -/
def parseFrom (keyIndex : LangKey) (tagsUsed : List UInt16) (piece : List UInt8)
    (result : QString) : List UInt8 → Option QString
  | [] => some (appendToResult g piece result)
  | ch :: bytes =>
    if ch = 0x7B then
      match _h : readTag g keyIndex tagsUsed bytes with
      | none => none
      | some (index, rest) =>
        parseFrom keyIndex (index :: tagsUsed) []
          (appendToResult g piece result ++ tagReplacer index) rest
    else parseFrom keyIndex tagsUsed (piece ++ [ch]) result bytes
termination_by bytes => bytes.length
decreasing_by
  · have := readTag_length g _h
    simp only [List.length_cons]
    omega
  · simp

def parse (keyIndex : LangKey) (value : List UInt8) : Option QString :=
  parseFrom g keyIndex [] [] [] value

theorem parseFrom_plain {keyIndex : LangKey} {tagsUsed : List UInt16} {piece : List UInt8}
    {result : QString} {bytes : List UInt8} (h : 0x7B ∉ bytes) :
    parseFrom g keyIndex tagsUsed piece result bytes =
      some (appendToResult g (piece ++ bytes) result) := by
  induction bytes generalizing piece with
  | nil => simp [parseFrom]
  | cons ch bytes ih =>
    have hch : ch ≠ 0x7B := by
      rintro rfl
      simp at h
    have hbytes : 0x7B ∉ bytes := fun hmem => h (List.mem_cons_of_mem _ hmem)
    rw [parseFrom, if_neg hch, ih hbytes, List.append_assoc, List.singleton_append]

theorem parse_plain {keyIndex : LangKey} {value : List UInt8} (h : 0x7B ∉ value) :
    parse g keyIndex value = some (g.fromUtf8 value) := by
  by_cases hne : value = []
  · subst hne
    simp [parse, parseFrom, appendToResult, g.fromUtf8_nil]
  · simp [parse, parseFrom_plain g h, appendToResult, hne]

end TelegramClient.Lang
