import TelegramClient.Text.Characters

/-! Texts with entities (`ui/text/text_entity.h`). -/

namespace TelegramClient.Text

inductive EntityType where
  | invalid
  | url
  | customUrl
  | email
  | hashtag
  | cashtag
  | mention
  | mentionName
  | botCommand
  | bold
  | italic
  | code
  | pre
  deriving DecidableEq, Repr

structure EntityInText where
  type : EntityType
  offset : Int
  length : Int
  data : List QChar
  deriving DecidableEq, Repr

namespace EntityInText

variable (entity : EntityInText)

def extendToLeft (extent : Int) : EntityInText :=
  { entity with offset := entity.offset - extent, length := entity.length + extent }

def shrinkFromRight (shrink : Int) : EntityInText :=
  { entity with length := entity.length - shrink }

def shiftLeft (shift : Int) : EntityInText :=
  let offset := entity.offset - shift
  if offset < 0 then
    let length := entity.length + offset
    { entity with offset := 0, length := if length < 0 then 0 else length }
  else { entity with offset := offset }

def shiftRight (shift : Int) : EntityInText := { entity with offset := entity.offset + shift }

def updateTextEnd (textEnd : Int) : EntityInText :=
  if entity.offset > textEnd then { entity with offset := textEnd, length := 0 }
  else if entity.offset + entity.length > textEnd then
    { entity with length := textEnd - entity.offset }
  else entity

def isMonospace : Bool := entity.type = .pre || entity.type = .code

def firstMonospaceOffset (entities : List EntityInText) (textLength : Int) : Int :=
  ((entities.filter isMonospace).map offset).min?.getD textLength

end EntityInText

structure TextWithEntities where
  text : List QChar := []
  entities : List EntityInText := []
  deriving DecidableEq, Repr

/-! ### What entities cover -/

def EntityInText.Covers (entity : EntityInText) (i : Int) : Prop :=
  entity.offset ≤ i ∧ i < entity.offset + entity.length

/-- Two entities of the same kind. -/
def EntityInText.SameKind (a b : EntityInText) : Prop := a.type = b.type ∧ a.data = b.data

/-- The entities are in the text, one behind the other. -/
structure TextWithEntities.Valid (t : TextWithEntities) : Prop where
  inside : ∀ entity ∈ t.entities, 0 ≤ entity.offset ∧ 0 ≤ entity.length ∧
    entity.offset + entity.length ≤ t.text.length
  sorted : t.entities.Pairwise fun a b => a.offset + a.length ≤ b.offset

end TelegramClient.Text
