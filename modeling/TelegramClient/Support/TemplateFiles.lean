import TelegramClient.Lib.Utf8Reading
import TelegramClient.Text.Accents

/-! Files with templates of answers (`support/support_templates.cpp`): how they are read line by
line, and how an update writes one with the keys of its user. -/

namespace TelegramClient.Support

open Text Std

abbrev QString := List QChar

/-- `qstr`, a text of Latin letters. -/
def qstr (s : String) : QString := s.toList.map fun c => .ofNat c.toNat

/-- What Qt knows of characters. -/
structure Qt where
  platform : Platform
  isLetterOrNumber : QChar → Bool
  toLowerChar : QChar → QChar
  toLower : QString → QString

variable (qt : Qt)

def Qt.trimmed (text : QString) : QString :=
  (text.dropWhile qt.platform.isSpace).rdropWhile qt.platform.isSpace

/-- `QString::fromUtf8` -/
def fromUtf8 (bytes : List UInt8) : QString := Utf16.encode (Utf8.decode bytes)

structure TemplatesQuestion where
  question : QString := []
  originalKeys : List QString := []
  normalizedKeys : List QString := []
  value : QString := []
  deriving DecidableEq

abbrev Questions := ExtTreeMap QString TemplatesQuestion compare

structure TemplatesFile where
  url : QString := []
  questions : Questions := ∅

def normalizeQuestion (question : QString) : QString :=
  (question.filter qt.isLetterOrNumber).map qt.toLowerChar

def normalizeKey (query : QString) : QString :=
  removeAccents qt.platform (qt.toLower (qt.trimmed query))

/-! ### Lines -/

inductive ReadState where
  | none
  | question
  | keys
  | value
  | url
  deriving DecidableEq

def isTokenChar (ch : QChar) : Bool := 0x41 ≤ ch && ch ≤ 0x5A || ch == 0x5F

/-- The name of a section, if the line is the head of one. -/
def token? (line : QString) : Option QString :=
  match line with
  | [] => none
  | first :: rest =>
    let token := rest.dropLast
    if first = 0x7B ∧ rest.getLast? = some 0x7D ∧ token ≠ [] ∧ token.all isTokenChar then some token
    else none

/-- `blob.split('\n')`, every line read and trimmed. -/
def lines (blob : List UInt8) : List QString :=
  (blob.splitOn 10).map fun utf => qt.trimmed (fromUtf8 utf)

structure LineState where
  state : ReadState := .none
  hadKeys : Bool := false
  hadValue : Bool := false
  deriving DecidableEq

def LineState.leave (s : LineState) : LineState :=
  if s.state = .value then { s with hadKeys := false, hadValue := false } else s

def LineState.next (s : LineState) (token : QString) : ReadState :=
  if token = qstr "VALUE" then if s.hadValue then .none else .value
  else if token = qstr "KEYS" then if s.hadKeys then .none else .keys
  else if token = qstr "QUESTION" then .question
  else if token = qstr "URL" then .url
  else .none

/-- The head of a section. -/
def LineState.enter (s : LineState) (token : QString) : LineState :=
  { s.leave with state := s.leave.next token }

/-- Another line. -/
def LineState.see (s : LineState) (line : QString) : LineState :=
  if line = [] then s
  else
    match s.state with
    | .value => { s with hadValue := true }
    | .keys => { s with hadKeys := true }
    | _ => s

section ReadByLine

variable {σ : Type} (stateChange : σ → ReadState → ReadState → σ)
  (lineCallback : σ → ReadState → QString → Bool → σ)

def readLine (s : LineState × σ) (line : QString) : LineState × σ :=
  match token? line with
  | some token =>
    let now := s.1.enter token
    (now, lineCallback (stateChange s.2 s.1.state now.state) now.state line true)
  | none =>
    let now := s.1.see line
    (now, lineCallback s.2 now.state line false)

def readLines (lines : List QString) (start : σ) : LineState × σ :=
  lines.foldl (readLine stateChange lineCallback) ({}, start)

def readByLine (blob : List UInt8) (start : σ) : σ :=
  (readLines stateChange lineCallback (lines qt blob) start).2

end ReadByLine

/-! ### Reading -/

/-- What is read so far. -/
structure Reading (ρ : Type) where
  url : QString := []
  question : TemplatesQuestion := {}
  result : ρ

section ReadByLineGetUrl

variable {ρ : Type} (callback : ρ → TemplatesQuestion → ρ)

def chop (value : QString) : QString := value.rdropWhile (· = 10)

/-- The question is taken. -/
def Reading.call (r : Reading ρ) : Reading ρ :=
  { r with
    question := {}
    result := callback r.result { r.question with value := chop r.question.value } }

def Reading.change (r : Reading ρ) (was _now : ReadState) : Reading ρ :=
  if was = .value then r.call callback else r

def Reading.line (r : Reading ρ) (state : ReadState) (line : QString) (stateChangeLine : Bool) :
    Reading ρ :=
  if stateChangeLine then r
  else
    match state with
    | .keys =>
      if line = [] then r
      else
        let norm := normalizeKey qt line
        { r with question := { r.question with
          originalKeys := r.question.originalKeys ++ [line]
          normalizedKeys := r.question.normalizedKeys ++ if norm = [] then [] else [norm] } }
    | .value =>
      let value := if r.question.value = [] then [] else r.question.value ++ [10]
      { r with question := { r.question with value := value ++ line } }
    | .question =>
      if r.question.question = [] then { r with question := { r.question with question := line } }
      else r
    | .url => if r.url = [] then { r with url := line } else r
    | .none => r

def readByLineGetUrl (blob : List UInt8) (start : ρ) : QString × ρ :=
  let r := (readByLine qt (Reading.change callback) (Reading.line qt) blob
    { result := start }).call callback
  (r.url, r.result)

end ReadByLineGetUrl

/-- A question is kept under its normalized text, the first one of a text only. -/
def addQuestion (questions : Questions) (q : TemplatesQuestion) : Questions :=
  let normalized := normalizeQuestion qt q.question
  if normalized = [] then questions else questions.insertIfNew normalized q

def readFromBlob (blob : List UInt8) : TemplatesFile :=
  let r := readByLineGetUrl qt (addQuestion qt) blob ∅
  { url := r.1, questions := r.2 }

/-! ### Differences -/

structure Delta where
  added : List TemplatesQuestion := []
  changed : List TemplatesQuestion := []
  removed : List TemplatesQuestion := []
  keys : ExtTreeMap QString (List QString) compare := ∅

/-- One question of the new file. -/
def Delta.addNow (was : Questions) (result : Delta) (p : QString × TemplatesQuestion) : Delta :=
  match was[p.1]? with
  | none => { result with added := result.added ++ [p.2] }
  | some old =>
    { result with
      keys := result.keys.insertIfNew p.1 old.originalKeys
      changed := if old.value ≠ p.2.value then result.changed ++ [p.2] else result.changed }

def computeDelta (was now : TemplatesFile) : Delta :=
  let result := now.questions.toList.foldl (Delta.addNow was.questions) {}
  { result with
    removed := (was.questions.toList.filter fun p => !result.keys.contains p.1).map Prod.snd }

/-! ### Writing -/

/-- What is written so far, and the question that the lines belong to. -/
structure Writing where
  out : List UInt8
  question : QString := []
  normalized : QString := []
  ownKeysWritten : Bool := false

/-- `device.write(line.toUtf8())` with an end of line -/
def Writing.writeLine (w : Writing) (line : QString) : Writing :=
  { w with out := w.out ++ Utf16.toUtf8 line ++ [10] }

/-- `QStringList::join` -/
def join (list : List QString) : QString := [(10 : QChar)].intercalate list

def Writing.change (w : Writing) (was _now : ReadState) : Writing :=
  if was = .value then { w with question := [], normalized := [] } else w

/-- The keys of the user instead of those in the blob. -/
def Writing.writeOwnKeys (keys : ExtTreeMap QString (List QString) compare) (w : Writing) : Writing :=
  if w.normalized = [] then { w with ownKeysWritten := false }
  else
    match keys[w.normalized]? with
    | none => { w with ownKeysWritten := false }
    | some own => { w.writeLine (join own) with ownKeysWritten := true }

def Writing.line (keys : ExtTreeMap QString (List QString) compare) (w : Writing)
    (state : ReadState) (line : QString) (stateChangeLine : Bool) : Writing :=
  match state with
  | .keys =>
    if stateChangeLine then (w.writeLine line).writeOwnKeys keys
    else if w.ownKeysWritten then w
    else w.writeLine line
  | .value => w.writeLine line
  | .question =>
    let w := w.writeLine line
    if !stateChangeLine ∧ w.question = [] then
      { w with question := line, normalized := normalizeQuestion qt line }
    else w
  | .url | .none => w

def writeWithOwnUrlAndKeys (blob : List UInt8) (url : QString) (delta : Delta) : List UInt8 :=
  let head := Utf16.toUtf8 (qstr "{URL}") ++ [10] ++ Utf16.toUtf8 url ++ [10, 10]
  (readByLine qt Writing.change (Writing.line qt delta.keys) blob { out := head }).out

end TelegramClient.Support
