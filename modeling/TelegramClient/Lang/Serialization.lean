import TelegramClient.Storage.DataStream
import TelegramClient.Lang.Instance

/-! A language pack saved to bytes and read back (`serialize` and `fillFromSerialized` of
`lang_instance.cpp`). -/

namespace TelegramClient.Lang

open DataStream

def kSerializeVersionTag : QString := utf16 "#new"

def kSerializeVersion : Int32 := 1

def kLangValuesLimit : Int32 := 20000

/-- The files of custom languages: their bytes, the strings that are found in them, and the
plural rules that are taken from their names. -/
structure CustomFiles where
  readFile : QString → QString → List UInt8
  keyValues : List UInt8 → List (List UInt8 × List UInt8)
  pluralCodeForCustom : QString → QString → QString

variable {LangKey : Type}

def serializeString (nonDefault : List UInt8 × List UInt8) : List UInt8 :=
  writeBytes nonDefault.1 ++ writeBytes nonDefault.2

def PackData.serialize (p : PackData LangKey) (base : List UInt8) : List UInt8 :=
  writeString kSerializeVersionTag ++ writeInt32 kSerializeVersion ++ writeString p.id ++
    writeString p.pluralId ++ writeString p.name ++ writeString p.nativeName ++
    writeInt32 p.version ++ writeString p.customFilePathAbsolute ++
    writeString p.customFilePathRelative ++ writeBytes p.customFileContent ++
    writeInt32 (.ofNat p.nonDefaultValues.size) ++
    p.nonDefaultValues.toList.flatMap serializeString ++ writeBytes base

def Instance.serialize (s : Instance LangKey) : List UInt8 :=
  s.me.serialize (s.base.elim [] fun base => base.serialize [])

/-! ## Reading -/

/-- What stands before the strings. -/
structure Header where
  legacyFormat : Bool
  id : QString
  pluralId : QString := []
  name : QString := []
  nativeName : QString := []
  version : Int32
  customFilePathAbsolute : QString
  customFilePathRelative : QString
  customFileContent : List UInt8
  nonDefaultValuesCount : Int32
  deriving DecidableEq, Repr

/-- The header of the format without a version. -/
def readLegacyHeader (id : QString) : Reader Header := do
  let version ← readInt32
  let customFilePathAbsolute ← readString
  let customFilePathRelative ← readString
  let customFileContent ← readByteArray
  let nonDefaultValuesCount ← readInt32
  return {
    legacyFormat := true
    id, version
    customFilePathAbsolute, customFilePathRelative, customFileContent
    nonDefaultValuesCount }

def readNewHeader : Reader Header := do
  let serializeVersion ← readInt32
  stopUnless (serializeVersion = kSerializeVersion)
  let id ← readString
  let pluralId ← readString
  let name ← readString
  let nativeName ← readString
  let version ← readInt32
  let customFilePathAbsolute ← readString
  let customFilePathRelative ← readString
  let customFileContent ← readByteArray
  let nonDefaultValuesCount ← readInt32
  return {
    legacyFormat := false
    id, pluralId, name, nativeName, version
    customFilePathAbsolute, customFilePathRelative, customFileContent
    nonDefaultValuesCount }

def readHeader : Reader Header := do
  let serializeVersionTag ← readString
  let header ← if serializeVersionTag ≠ kSerializeVersionTag then
      readLegacyHeader serializeVersionTag
    else readNewHeader
  stopUnless (← status)
  stopUnless (header.nonDefaultValuesCount ≤ kLangValuesLimit)
  return header

def readNonDefaultStrings : Nat → Reader (List (List UInt8 × List UInt8))
  | 0 => return []
  | n + 1 => do
    let key ← readByteArray
    let value ← readByteArray
    stopUnless (← status)
    let rest ← readNonDefaultStrings n
    return (key, value) :: rest

def atEnd : Reader Bool := fun s => some (s.bytes = [], s)

/-- The plural rules and the bytes of the base pack. The old format may end before both. -/
def readBase (header : Header) : Reader (QString × List UInt8) := do
  if header.legacyFormat then
    let pluralId ← if !(← atEnd) then readString else pure header.id
    if !(← atEnd) then
      let base ← readByteArray
      stopUnless (← status)
      stopUnless (base ≠ [])
      return (pluralId, base)
    else
      stopUnless (← status)
      return (pluralId, [])
  else
    let base ← readByteArray
    return (header.pluralId, base)

/-! ## The instance -/

variable [DecidableEq LangKey] (g : LangFile LangKey) (files : CustomFiles)

namespace Instance

/-- The base instance of the instance of a pack is destroyed. A base pack has none. -/
def dropBase (s : Instance LangKey) (pack : Pack) : Instance LangKey :=
  match pack with
  | .current => { s with base := none }
  | .base => s

def applyValues (s : Instance LangKey) (pack : Pack) (strings : List (List UInt8 × List UInt8)) :
    Instance LangKey :=
  s.applyChanges g pack (strings.map fun nonDefault => .set nonDefault.1 nonDefault.2)

def fillFromCustomContent (s : Instance LangKey) (pack : Pack) (absolutePath relativePath : QString)
    (content : List UInt8) : Instance LangKey :=
  let s := (s.dropBase pack).modify pack fun me =>
    { me with
      id := customLanguageId
      pluralId := files.pluralCodeForCustom absolutePath relativePath
      name := []
      nativeName := []
      version := 0
      customFilePathAbsolute := absolutePath
      customFilePathRelative := relativePath
      customFileContent := content }
  s.applyValues g pack (files.keyValues content)

/-- The fields after the strings were read. -/
def fillFields (s : Instance LangKey) (pack : Pack) (header : Header) (pluralId : QString) :
    Instance LangKey :=
  s.modify pack fun me =>
    { me with
      id := header.id
      pluralId :=
        if header.id = customLanguageId then
          files.pluralCodeForCustom header.customFilePathAbsolute header.customFilePathRelative
        else pluralId
      name := header.name
      nativeName := header.nativeName
      version := header.version
      customFilePathAbsolute := header.customFilePathAbsolute
      customFilePathRelative := header.customFilePathRelative
      customFileContent := header.customFileContent }

/-- `fillBase` creates and fills the base instance. `none` where the code breaks. -/
def fill (fillBase : Instance LangKey → List UInt8 → Option (Instance LangKey))
    (s : Instance LangKey) (pack : Pack) (data : List UInt8) : Option (Instance LangKey) :=
  match readHeader ⟨data, true⟩ with
  | none => some s
  | some (header, stream) =>
    let custom := header.customFilePathAbsolute ≠ []
    let header := if custom then { header with id := customLanguageId } else header
    let currentCustomFileContent :=
      files.readFile header.customFilePathAbsolute header.customFilePathRelative
    if custom ∧ currentCustomFileContent ≠ [] ∧
        currentCustomFileContent ≠ header.customFileContent then
      some (s.fillFromCustomContent g files pack header.customFilePathAbsolute
        header.customFilePathRelative currentCustomFileContent)
    -- the space for a negative number of strings is not there
    else if header.nonDefaultValuesCount < 0 then none
    else
      match readNonDefaultStrings header.nonDefaultValuesCount.toNatClampNeg stream with
      | none => some s
      | some (nonDefaultStrings, stream) =>
        let s := s.dropBase pack
        match readBase header stream with
        | none => some s
        | some ((pluralId, base), _) =>
          (if base ≠ [] then fillBase s base else some s).map fun s =>
            let s := (s.fillFields files pack header pluralId).applyValues g pack nonDefaultStrings
            s.modify pack fun me => me.updatePluralRules files.pluralCodeForCustom

/-- The base pack of a base pack would write into values that a base instance has not. -/
def fillFromSerialized (s : Instance LangKey) (data : List UInt8) : Option (Instance LangKey) :=
  fill g files
    (fun s base => fill g files (fun _ _ => none) { s with base := some {} } .base base)
    s .current data

end Instance

/-! ## Reading back -/

section ReadingBack

omit [DecidableEq LangKey]

variable {p : PackData LangKey} {base : List UInt8}

/-- The bytes of a pack fit an array, and its strings are not refused. -/
structure PackData.Fits (p : PackData LangKey) (base : List UInt8) : Prop where
  length_lt : (p.serialize base).length < 2 ^ 31
  size_le : p.nonDefaultValues.size ≤ 20000

instance (p : PackData LangKey) (base : List UInt8) : Decidable (p.Fits base) :=
  decidable_of_iff ((p.serialize base).length < 2 ^ 31 ∧ p.nonDefaultValues.size ≤ 20000)
    ⟨fun h => ⟨h.1, h.2⟩, fun h => ⟨h.1, h.2⟩⟩

def PackData.header (p : PackData LangKey) : Header where
  legacyFormat := false
  id := p.id
  pluralId := p.pluralId
  name := p.name
  nativeName := p.nativeName
  version := p.version
  customFilePathAbsolute := p.customFilePathAbsolute
  customFilePathRelative := p.customFilePathRelative
  customFileContent := p.customFileContent
  nonDefaultValuesCount := .ofNat p.nonDefaultValues.size

/-- Every text and array of a pack that fits an array fits one. -/
structure PackData.PartsFit (p : PackData LangKey) (base : List UInt8) : Prop where
  id : (utf16Bytes p.id).length < 2 ^ 31
  pluralId : (utf16Bytes p.pluralId).length < 2 ^ 31
  name : (utf16Bytes p.name).length < 2 ^ 31
  nativeName : (utf16Bytes p.nativeName).length < 2 ^ 31
  customFilePathAbsolute : (utf16Bytes p.customFilePathAbsolute).length < 2 ^ 31
  customFilePathRelative : (utf16Bytes p.customFilePathRelative).length < 2 ^ 31
  customFileContent : p.customFileContent.length < 2 ^ 31
  strings : (p.nonDefaultValues.toList.flatMap serializeString).length < 2 ^ 31
  base : base.length < 2 ^ 31

theorem PackData.Fits.parts (h : p.Fits base) : p.PartsFit base := by
  have hlength := h.length_lt
  simp only [PackData.serialize, List.length_append] at hlength
  have hle (text : QString) : (utf16Bytes text).length ≤ (writeString text).length :=
    length_le_writeBytes _
  have h₁ := hle p.id
  have h₂ := hle p.pluralId
  have h₃ := hle p.name
  have h₄ := hle p.nativeName
  have h₅ := hle p.customFilePathAbsolute
  have h₆ := hle p.customFilePathRelative
  have h₇ := length_le_writeBytes p.customFileContent
  have h₈ := length_le_writeBytes base
  constructor <;> omega

theorem readNewHeader_append (h : p.PartsFit base) (rest : List UInt8) :
    readNewHeader ⟨writeInt32 kSerializeVersion ++ (writeString p.id ++ (writeString p.pluralId ++
      (writeString p.name ++ (writeString p.nativeName ++ (writeInt32 p.version ++
      (writeString p.customFilePathAbsolute ++ (writeString p.customFilePathRelative ++
      (writeBytes p.customFileContent ++ (writeInt32 (.ofNat p.nonDefaultValues.size) ++
      rest))))))))), true⟩ = some (p.header, ⟨rest, true⟩) := by
  rw [readNewHeader, bind_some (readInt32_append _ _ _), stopUnless_true _ (by decide),
    bind_some (readString_append (length_lt_of_utf16Bytes h.id) _),
    bind_some (readString_append (length_lt_of_utf16Bytes h.pluralId) _),
    bind_some (readString_append (length_lt_of_utf16Bytes h.name) _),
    bind_some (readString_append (length_lt_of_utf16Bytes h.nativeName) _),
    bind_some (readInt32_append _ _ _),
    bind_some (readString_append (length_lt_of_utf16Bytes h.customFilePathAbsolute) _),
    bind_some (readString_append (length_lt_of_utf16Bytes h.customFilePathRelative) _),
    bind_some (readByteArray_append h.customFileContent _), bind_some (readInt32_append _ _ _)]
  rfl

theorem readHeader_serialize (h : p.Fits base) :
    readHeader ⟨p.serialize base, true⟩ =
      some (p.header, ⟨p.nonDefaultValues.toList.flatMap serializeString ++ writeBytes base,
        true⟩) := by
  have hsize : decide (p.header.nonDefaultValuesCount ≤ kLangValuesLimit) = true := by
    have hle := h.size_le
    exact decide_eq_true ((Int32.ofNat_le_iff_le (by omega) (by decide)).mpr hle)
  have hnew := readNewHeader_append h.parts
    (p.nonDefaultValues.toList.flatMap serializeString ++ writeBytes base)
  have hstatus (rest : List UInt8) : status ⟨rest, true⟩ = some (true, ⟨rest, true⟩) := rfl
  have htag : (utf16Bytes kSerializeVersionTag).length < 2 ^ 31 := by decide
  simp only [PackData.serialize, List.append_assoc]
  rw [readHeader, bind_some (readString_append (length_lt_of_utf16Bytes htag) _),
    if_neg (not_not_intro rfl), bind_some hnew]
  dsimp only
  rw [bind_some (hstatus _), stopUnless_true _ rfl, stopUnless_true _ hsize]
  rfl

theorem readNonDefaultStrings_append {strings : List (List UInt8 × List UInt8)}
    (h : (strings.flatMap serializeString).length < 2 ^ 31) (rest : List UInt8) :
    readNonDefaultStrings strings.length ⟨strings.flatMap serializeString ++ rest, true⟩ =
      some (strings, ⟨rest, true⟩) := by
  induction strings with
  | nil => rfl
  | cons nonDefault strings ih =>
    simp only [List.flatMap_cons, serializeString, List.length_append] at h
    have hkey := length_le_writeBytes nonDefault.1
    have hvalue := length_le_writeBytes nonDefault.2
    have hstatus (rest : List UInt8) : status ⟨rest, true⟩ = some (true, ⟨rest, true⟩) := rfl
    have hrest : (strings.flatMap serializeString).length < 2 ^ 31 := by omega
    simp only [List.flatMap_cons, serializeString, List.append_assoc, List.length_cons,
      readNonDefaultStrings]
    rw [bind_some (readByteArray_append (by omega) _), bind_some (readByteArray_append (by omega) _),
      bind_some (hstatus _), stopUnless_true _ rfl, bind_some (ih hrest)]
    rfl

theorem readBase_append (hlegacy : header.legacyFormat = false) (h : base.length < 2 ^ 31) :
    readBase header ⟨writeBytes base, true⟩ = some ((header.pluralId, base), ⟨[], true⟩) := by
  have hread := readByteArray_append h []
  rw [List.append_nil] at hread
  rw [readBase, if_neg (by simp [hlegacy]), bind_some hread]
  rfl

end ReadingBack

/-- Filling the instance of a pack from a saved pack that has no custom file. -/
theorem fill_serialize {p : PackData LangKey} {base : List UInt8} (h : p.Fits base)
    (hpath : p.customFilePathAbsolute = [])
    (fillBase : Instance LangKey → List UInt8 → Option (Instance LangKey))
    (s : Instance LangKey) (pack : Pack) :
    s.fill g files fillBase pack (p.serialize base) =
      (if base ≠ [] then fillBase (s.dropBase pack) base else some (s.dropBase pack)).map fun s =>
        ((s.fillFields files pack p.header p.pluralId).applyValues g pack
          p.nonDefaultValues.toList).modify pack fun me =>
            me.updatePluralRules files.pluralCodeForCustom := by
  have hsize : p.nonDefaultValues.size < 2 ^ 31 := by
    have hle := h.size_le
    omega
  have hcount : p.header.nonDefaultValuesCount.toNatClampNeg = p.nonDefaultValues.toList.length := by
    rw [PackData.header, Int32.toNatClampNeg_ofNat_of_lt hsize, Std.ExtTreeMap.length_toList]
  have hnonneg : ¬ p.header.nonDefaultValuesCount < 0 := by
    have hzero := Int32.zero_le_ofNat_of_lt hsize
    exact Int32.not_lt.mpr hzero
  have hcustom : ¬ p.header.customFilePathAbsolute ≠ [] := not_not_intro hpath
  have hstrings := readNonDefaultStrings_append h.parts.strings (writeBytes base)
  have hbase : readBase p.header ⟨writeBytes base, true⟩ = some ((p.pluralId, base), ⟨[], true⟩) :=
    readBase_append rfl h.parts.base
  rw [Instance.fill, readHeader_serialize h]
  dsimp only
  rw [if_neg hcustom, if_neg (fun hne => hcustom hne.1), if_neg hnonneg, hcount, hstrings]
  dsimp only
  rw [hbase]

end TelegramClient.Lang
