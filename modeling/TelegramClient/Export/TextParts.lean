import Mathlib

/-! Parts of message texts (`export/data/export_data_types.h`). -/

namespace TelegramClient.Export

inductive TextType where
  | text
  | unknown
  | mention
  | hashtag
  | botCommand
  | url
  | email
  | bold
  | italic
  | code
  | pre
  | textUrl
  | mentionName
  | phone
  | cashtag
  deriving DecidableEq, Repr

structure TextPart where
  type : TextType := .text
  text : List UInt8 := []
  additional : List UInt8 := []
  deriving DecidableEq, Repr

end TelegramClient.Export
