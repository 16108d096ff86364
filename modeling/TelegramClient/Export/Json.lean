import TelegramClient.Export.Escaping
import TelegramClient.Export.Html
import TelegramClient.Export.TextParts

/-! How the exporter writes strings, objects, arrays and texts into JSON
(`export/output/export_output_json.cpp`). -/

namespace TelegramClient.Export.JsonWriter

open Utf8

inductive ContextType where
  | kObject
  | kArray
  deriving DecidableEq, Repr

structure Context where
  nesting : List ContextType := []
  deriving DecidableEq, Repr

def Context.push (type : ContextType) (context : Context) : Context :=
  { context with nesting := context.nesting ++ [type] }

def Context.pop (context : Context) : Context :=
  { context with nesting := context.nesting.dropLast }

def escape (ch : UInt8) (rest : Bytes) : Bytes :=
  if ch = 0x0A then ascii "\\n"
  else if ch = 0x0D then ascii "\\r"
  else if ch = 0x09 then ascii "\\t"
  else if ch = 0x22 then ascii "\\\""
  else if ch = 0x5C then ascii "\\\\"
  else if ch < 32 then ascii "\\x" ++ [(0x30 : UInt8) + (ch >>> 4), hexDigit (ch &&& 0x0F)]
  else appendSeparator (ascii "\\u2028") (ascii "\\u2029") ch rest

def serializeString (value : Bytes) : Bytes := 0x22 :: appendBytes escape value ++ [0x22]

def indentation (size : Nat) : Bytes := List.replicate size 0x20

/-- One pass of both loops: whether it is the first one, and the result. -/
def appendValue (next : Bytes) (s : Bool × Bytes) (value : Bytes) : Bool × Bytes :=
  (false, (if s.1 then s.2 else s.2 ++ [0x2C]) ++ next ++ value)

def appendMember (next : Bytes) (s : Bool × Bytes) (pair : Bytes × Bytes) : Bool × Bytes :=
  if pair.2 = [] then s else appendValue next s (serializeString pair.1 ++ ascii ": " ++ pair.2)

def serializeObject (values : List (Bytes × Bytes)) : StateM Context Bytes := do
  let indent := indentation (← get).nesting.length
  modify (Context.push .kObject)
  let next := 0x0A :: indentation (← get).nesting.length
  let result := (values.foldl (appendMember next) (true, [0x7B])).2
  modify Context.pop
  return result ++ 0x0A :: indent ++ [0x7D]

def serializeArray (values : List Bytes) : StateM Context Bytes := do
  let indent := indentation (← get).nesting.length
  let next := 0x0A :: indentation ((← get).nesting.length + 1)
  let result := (values.foldl (appendValue next) (true, [0x5B])).2
  return result ++ 0x0A :: indent ++ [0x5D]

/-- It is not asked for the type of plain text. -/
def typeString : TextType → String
  | .text => ""
  | .unknown => "unknown"
  | .mention => "mention"
  | .hashtag => "hashtag"
  | .botCommand => "bot_command"
  | .url => "link"
  | .email => "email"
  | .bold => "bold"
  | .italic => "italic"
  | .code => "code"
  | .pre => "pre"
  | .textUrl => "text_link"
  | .mentionName => "mention_name"
  | .phone => "phone"
  | .cashtag => "cashtag"

def additionalName : TextType → String
  | .mentionName => "user_id"
  | .pre => "language"
  | .textUrl => "href"
  | _ => "none"

def additionalValue (part : TextPart) : Bytes :=
  match part.type with
  | .mentionName => part.additional
  | .pre => serializeString part.additional
  | .textUrl => serializeString part.additional
  | _ => []

def serializePart (part : TextPart) : StateM Context Bytes :=
  if part.type = .text then return serializeString part.text
  else serializeObject
    [(ascii "type", serializeString (ascii (typeString part.type))),
      (ascii "text", serializeString part.text),
      (ascii (additionalName part.type), additionalValue part)]

def serializeText (data : List TextPart) : StateM Context Bytes := do
  if data = [] then
    return serializeString []
  modify (Context.push .kArray)
  let text ← data.mapM serializePart
  modify Context.pop
  match data, text with
  | [part], [value] => if part.type = .text then return value else serializeArray text
  | _, _ => serializeArray text

end TelegramClient.Export.JsonWriter
