import TelegramClient.Lang.ValueParser

/-! The language pack of `lang_instance.cpp`: an instance with the strings of its own pack, and
its derived base instance, which writes into the values of its owner. -/

namespace TelegramClient.Lang

open Std

def utf16 (s : String) : QString :=
  s.toList.map fun c => .ofNat c.toNat

def defaultLanguageId : QString := utf16 "zh-CN"

def customLanguageId : QString := utf16 "#custom"

def languageIdOrDefault (id : QString) : QString :=
  if id ≠ [] then id else defaultLanguageId

structure Language where
  id : QString
  pluralId : QString := []
  baseId : QString := []
  name : QString := []
  nativeName : QString := []
  deriving DecidableEq, Repr

inductive Pack where
  | current
  | base
  deriving DecidableEq, Repr

/-- The fields of an `Instance` without its `_values`, `_derived` and `_base`. -/
structure PackData (LangKey : Type) where
  id : QString := []
  pluralId : QString := []
  name : QString := []
  nativeName : QString := []
  version : Int32 := 0
  customFilePathAbsolute : QString := []
  customFilePathRelative : QString := []
  customFileContent : List UInt8 := []
  nonDefaultValues : ExtTreeMap (List UInt8) (List UInt8) compare := {}
  nonDefaultSet : LangKey → Bool := fun _ => false

/-- An instance that is not derived, with its derived base instance. -/
structure Instance (LangKey : Type) where
  me : PackData LangKey := {}
  base : Option (PackData LangKey) := none
  values : LangKey → QString

variable {LangKey : Type} [DecidableEq LangKey] (g : LangFile LangKey)

/-- `GetKeyIndex(QLatin1String(key))`: a Latin-1 string ends before a zero byte. -/
def keyIndexOf (key : List UInt8) : Option LangKey :=
  g.getKeyIndex (key.takeWhile (· ≠ 0))

def parseKeyValue (key value : List UInt8) : Option (LangKey × QString) :=
  match keyIndexOf g key with
  | some index => (parse g index value).map fun text => (index, text)
  | none => none

namespace PackData

variable (p : PackData LangKey)

def getNonDefaultValue (key : List UInt8) : QString :=
  match p.nonDefaultValues[key]? with
  | some value => g.fromUtf8 value
  | none => []

def isCustom : Bool :=
  p.id = customLanguageId || p.id = utf16 "#TEST_X" || p.id = utf16 "#TEST_0"

/-- `pluralCode` is `PluralCodeForCustom` of the two paths. -/
def updatePluralRules (pluralCode : QString → QString → QString) : PackData LangKey :=
  if p.pluralId = [] then
    { p with
      pluralId := if p.isCustom then pluralCode p.customFilePathAbsolute p.customFilePathRelative
        else languageIdOrDefault p.id }
  else p

/-- The fields after `reset`. -/
def reset (data : Language) : PackData LangKey :=
  { id := languageIdOrDefault data.id
    pluralId :=
      if data.pluralId ≠ [] then data.pluralId
      else if data.baseId ≠ [] then data.baseId
      else data.id
    name := data.name
    nativeName := data.nativeName }

end PackData

namespace Instance

/-- A default constructed instance. -/
def fresh : Instance LangKey :=
  { values := g.getOriginalValue }

def setValue (s : Instance LangKey) (index : LangKey) (value : QString) : Instance LangKey :=
  { s with values := Function.update s.values index value }

/-- The instance of a pack is changed. -/
def modify (s : Instance LangKey) (pack : Pack) (f : PackData LangKey → PackData LangKey) :
    Instance LangKey :=
  match pack with
  | .current => { s with me := f s.me }
  | .base => { s with base := s.base.map f }

end Instance

def prepareTestValue (filler : UInt16) (current : QString) : QString :=
  let rec go (inCommand : Bool) : QString → QString
    | [] => []
    | ch :: rest =>
      let newInCommand := if ch = textCommand then !inCommand else inCommand
      (if inCommand || newInCommand || g.isSpace ch then ch else filler) ::
        go newInCommand rest
  filler :: go false current

namespace Instance

def switchToId (pluralCode : QString → QString → QString) (data : Language) :
    Instance LangKey :=
  let me : PackData LangKey := .reset data
  let base : Option (PackData LangKey) :=
    if data.baseId = [] then none
    else some ((PackData.reset { id := data.baseId, pluralId := me.pluralId }).updatePluralRules
      pluralCode)
  let values : LangKey → QString :=
    if me.id = utf16 "#TEST_X" ∨ me.id = utf16 "#TEST_0" then
      fun key => prepareTestValue g (me.id.getD 5 0) (g.getOriginalValue key)
    else g.getOriginalValue
  { me := me.updatePluralRules pluralCode, base, values }

/-- `applyValue` of the instance of a pack. -/
def applyValue (s : Instance LangKey) (pack : Pack) (key value : List UInt8) :
    Instance LangKey :=
  let s := s.modify pack fun me =>
    { me with nonDefaultValues := me.nonDefaultValues.insert key value }
  match parseKeyValue g key value with
  | none => s
  | some (index, text) =>
    let s := s.modify pack fun me =>
      { me with nonDefaultSet := Function.update me.nonDefaultSet index true }
    match pack with
    | .current => s.setValue index text
    | .base => if s.me.nonDefaultSet index then s else s.setValue index text

/-- `resetValue` of the instance of a pack. -/
def resetValue (s : Instance LangKey) (pack : Pack) (key : List UInt8) : Instance LangKey :=
  let s := s.modify pack fun me => { me with nonDefaultValues := me.nonDefaultValues.erase key }
  match keyIndexOf g key with
  | none => s
  | some index =>
    let s := s.modify pack fun me =>
      { me with nonDefaultSet := Function.update me.nonDefaultSet index false }
    match pack with
    | .current =>
      let base := (s.base.map fun base => base.getNonDefaultValue g key).getD []
      s.setValue index (if base ≠ [] then base else g.getOriginalValue index)
    | .base =>
      if s.me.nonDefaultSet index then s else s.setValue index (g.getOriginalValue index)

end Instance

/-- `MTPLangPackString`. -/
inductive LangPackString where
  | plain (key value : List UInt8)
  | pluralized (key : List UInt8) (zero one two few many : Option (List UInt8))
      (other : List UInt8)
  | deleted (key : List UInt8)
  deriving DecidableEq, Repr

/-- A call of one of the callbacks of `HandleString`. -/
inductive Change where
  | set (key value : List UInt8)
  | reset (key : List UInt8)
  deriving DecidableEq, Repr

def postfixes : List (List UInt8) :=
  ["#zero", "#one", "#two", "#few", "#many", "#other"].map ascii

def handleString : LangPackString → List Change
  | .plain key value => [.set key value]
  | .pluralized key zero one two few many other =>
    [.set (key ++ ascii "#zero") (zero.getD []), .set (key ++ ascii "#one") (one.getD []),
      .set (key ++ ascii "#two") (two.getD []), .set (key ++ ascii "#few") (few.getD []),
      .set (key ++ ascii "#many") (many.getD []), .set (key ++ ascii "#other") other]
  | .deleted key => .reset key :: postfixes.map fun plural => .reset (key ++ plural)

/-- `MTPDlangPackDifference`. -/
structure Difference where
  langCode : QString
  fromVersion : Int32
  version : Int32
  strings : List LangPackString
  deriving DecidableEq, Repr

def Difference.changes (d : Difference) : List Change :=
  d.strings.flatMap handleString

namespace Instance

variable (s : Instance LangKey)

def applyChange (pack : Pack) : Change → Instance LangKey
  | .set key value => s.applyValue g pack key value
  | .reset key => s.resetValue g pack key

def applyChanges (pack : Pack) (changes : List Change) : Instance LangKey :=
  changes.foldl (fun s change => s.applyChange g pack change) s

def setVersion (pack : Pack) (version : Int32) : Instance LangKey :=
  s.modify pack fun me => { me with version := version }

def data : Pack → Option (PackData LangKey)
  | .current => some s.me
  | .base => s.base

/-- `none` where an `Expects` or the `Assert` fails. -/
def applyDifference (pack : Pack) (d : Difference) : Option (Instance LangKey) :=
  match s.data pack with
  | none => none
  | some me =>
    if languageIdOrDefault me.id = d.langCode ∧ d.fromVersion ≤ me.version then
      some ((s.setVersion pack d.version).applyChanges g pack d.changes)
    else none

/-- Differences are applied one after the other. -/
def applyDifferences : List (Pack × Difference) → Instance LangKey → Option (Instance LangKey)
  | [], s => some s
  | (pack, d) :: rest, s => (s.applyDifference g pack d).bind (applyDifferences rest)

end Instance

end TelegramClient.Lang
