import TelegramClient.Lib.Utf16
import TelegramClient.Export.TextParts

/-! How a message text is cut into parts by its entities (`Data::ParseText`). -/

namespace TelegramClient.Export

structure MTPString where
  text : List Char
  length_lt : (Utf8.encode text).length < 2 ^ 31

inductive EntityType where
  | messageEntityUnknown
  | messageEntityMention
  | messageEntityHashtag
  | messageEntityBotCommand
  | messageEntityUrl
  | messageEntityEmail
  | messageEntityBold
  | messageEntityItalic
  | messageEntityCode
  | messageEntityPre (language : List UInt8)
  | messageEntityTextUrl (url : List UInt8)
  | messageEntityMentionName (userId : Int32)
  | inputMessageEntityMentionName
  | messageEntityPhone
  | messageEntityCashtag
  deriving DecidableEq

structure MessageEntity where
  type : EntityType
  offset : Int32
  length : Int32
  deriving DecidableEq

def numberToString (n : Int) : List UInt8 := Utf8.encode (toString n).toList

def EntityType.partType : EntityType → TextType
  | .messageEntityUnknown => .unknown
  | .messageEntityMention => .mention
  | .messageEntityHashtag => .hashtag
  | .messageEntityBotCommand => .botCommand
  | .messageEntityUrl => .url
  | .messageEntityEmail => .email
  | .messageEntityBold => .bold
  | .messageEntityItalic => .italic
  | .messageEntityCode => .code
  | .messageEntityPre _ => .pre
  | .messageEntityTextUrl _ => .textUrl
  | .messageEntityMentionName _ => .mentionName
  | .inputMessageEntityMentionName => .mentionName
  | .messageEntityPhone => .phone
  | .messageEntityCashtag => .cashtag

def EntityType.additional : EntityType → List UInt8
  | .messageEntityPre language => language
  | .messageEntityTextUrl url => url
  | .messageEntityMentionName userId => numberToString userId.toInt
  | _ => []

/-- What is left of a number in an `int`. -/
def wrap (n : Int) : Int := n.bmod (2 ^ 32)

theorem wrap_of_lt {n : Int} (h : -2 ^ 31 ≤ n) (h' : n < 2 ^ 31) : wrap n = n := by
  rw [wrap, Int.bmod_eq_of_le] <;> omega

theorem wrap_lt (n : Int) : wrap n < 2 ^ 31 := by
  rw [wrap, Int.bmod]
  split <;> omega

theorem wrap_of_le {n : Int} (h : 2 ^ 31 ≤ n) (h' : n < 2 ^ 32) : wrap n < 0 := by
  rw [wrap, Int.bmod]
  split <;> omega

/-- `QString::mid` -/
def mid (text : List UInt16) (position length : Int) : List UInt16 :=
  if position > text.length then []
  else if position < 0 then
    if length < 0 ∨ length + position ≥ text.length then text
    else text.take (length + position).toNat
  -- a negative length is a large unsigned number
  else if length < 0 then text.drop position.toNat
  else (text.drop position.toNat).take length.toNat

/-- The parts so far, and where the last one ends. -/
structure ParsedText where
  result : List TextPart := []
  offset : Int := 0

def ParsedText.addTextPart (text : List UInt16) (till : Int) (s : ParsedText) : ParsedText :=
  if till > s.offset then
    ⟨s.result ++ [{ text := Utf16.toUtf8 (mid text s.offset (wrap (till - s.offset))) }], till⟩
  else s

/-- The entity begins before the offset, is empty or ends behind the text, as far as this is
seen by the number of bytes. -/
def MessageEntity.isSkipped (size offset : Int) (entity : MessageEntity) : Bool :=
  entity.offset.toInt < offset || entity.length.toInt ≤ 0 ||
    wrap (entity.offset.toInt + entity.length.toInt) > size

def ParsedText.addEntity (text : List UInt16) (size : Int) (s : ParsedText)
    (entity : MessageEntity) : ParsedText :=
  if entity.isSkipped size s.offset then s
  else
    let start := entity.offset.toInt
    let length := entity.length.toInt
    let s := s.addTextPart text start
    let part : TextPart :=
      { type := entity.type.partType
        text := Utf16.toUtf8 (mid text start length)
        additional := entity.type.additional }
    ⟨s.result ++ [part], wrap (start + length)⟩

def parseText (data : MTPString) (entities : List MessageEntity) : List TextPart :=
  let text := Utf16.encode data.text
  let size : Int := (Utf8.encode data.text).length
  ((entities.foldl (ParsedText.addEntity text size) {}).addTextPart text size).result

end TelegramClient.Export
