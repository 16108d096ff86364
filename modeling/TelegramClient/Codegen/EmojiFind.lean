import TelegramClient.Lib.Prefixes

/-! The lookup code that `writeFindFromDictionary` of `codegen/emoji/generator.cpp` writes,
line by line, and how the written lines run. The indentation is left out. -/

namespace TelegramClient.Codegen

/-- A code unit of UTF-16. -/
abbrev QChar := Fin 65536

def kPostfix : QChar := 0xFE0F

/-- `std::map<QString, int, std::greater<QString>>`, from its begin to its end, without an
empty key. -/
structure Dictionary where
  items : List (List QChar × Nat)
  sorted : (items.map Prod.fst).Pairwise (· > ·)
  nonempty : ∀ item ∈ items, item.1 ≠ []

namespace Dictionary

def keys (d : Dictionary) : List (List QChar) :=
  d.items.map Prod.fst

end Dictionary

inductive UsedCheckType where
  | byIf
  | bySwitch
  deriving DecidableEq, Repr

inductive Line where
  /-- `if (outLength) *outLength = (ch - start);` -/
  | countLength
  /-- `if (ch != end) switch (ch->unicode()) {` -/
  | openSwitch
  /-- `if (ch != end && ch->unicode() == keyChar) {` -/
  | openIf (keyChar : QChar)
  | caseOf (keyChar : QChar)
  /-- `++ch;`, or `if (++ch != end && ch->unicode() == kPostfix) ++ch;` -/
  | next (skipPostfix : Bool)
  /-- `if ((ch - 1)->unicode() != kPostfix) { return 0; }` -/
  | requirePostfix
  | breakSwitch
  | close
  | returnIndex (value : Nat)
  deriving DecidableEq, Repr

/-! ## The written code -/

inductive Mode where
  | run
  /-- Behind a condition that failed or a `break`: the lines up to the end of the so many
  innermost braces are passed over. -/
  | skip (braces : Nat)
  /-- Before the case of a letter, with so many braces opened inside of the switch. -/
  | seek (letter : QChar) (braces : Nat)
  deriving DecidableEq, Repr

/-- A run of the written function: the braces it is in, the letters it has passed, what it
has stored and what it has returned. -/
structure Machine where
  mode : Mode := .run
  entered : List UsedCheckType := []
  ch : Nat := 0
  outLength : Option Nat := none
  result : Option Nat := none
  deriving DecidableEq, Repr

/-- The place behind the letter at a place. -/
def nextPlace (skipPostfix : Bool) (text : List QChar) (ch : Nat) : Nat :=
  if skipPostfix ∧ text[ch + 1]? = some kPostfix then ch + 2 else ch + 1

/-- The letter before a place is a postfix. -/
def postfixBefore (text : List QChar) (ch : Nat) : Bool :=
  text[ch - 1]? == some kPostfix

namespace Machine

/-- A line is run. -/
def runLine (text : List QChar) (m : Machine) : Line → Machine
  | .countLength => { m with outLength := some m.ch }
  | .openSwitch =>
    match text[m.ch]? with
    | some letter => { m with mode := .seek letter 0, entered := .bySwitch :: m.entered }
    | none => { m with mode := .skip 1 }
  | .openIf keyChar =>
    if text[m.ch]? = some keyChar then { m with entered := .byIf :: m.entered }
    else { m with mode := .skip 1 }
  | .caseOf _ => m
  | .next skipPostfix => { m with ch := nextPlace skipPostfix text m.ch }
  | .requirePostfix => if postfixBefore text m.ch then m else { m with result := some 0 }
  | .breakSwitch =>
    let inside := m.entered.takeWhile (· = .byIf)
    { m with
      mode := .skip (inside.length + 1)
      entered := m.entered.drop (inside.length + 1) }
  | .close => { m with entered := m.entered.tail }
  | .returnIndex value => { m with result := some value }

/-- A line is passed over. -/
def skipLine (m : Machine) (braces : Nat) : Line → Machine
  | .openSwitch => { m with mode := .skip (braces + 1) }
  | .openIf _ => { m with mode := .skip (braces + 1) }
  | .close => { m with mode := if braces ≤ 1 then .run else .skip (braces - 1) }
  | _ => m

/-- A line is passed over while the case of a letter is sought. There is no `default`. -/
def seekLine (m : Machine) (letter : QChar) (braces : Nat) : Line → Machine
  | .openSwitch => { m with mode := .seek letter (braces + 1) }
  | .openIf _ => { m with mode := .seek letter (braces + 1) }
  | .caseOf keyChar => if braces = 0 ∧ keyChar = letter then { m with mode := .run } else m
  | .close =>
    if braces = 0 then { m with mode := .run, entered := m.entered.tail }
    else { m with mode := .seek letter (braces - 1) }
  | _ => m

def exec (text : List QChar) (m : Machine) (line : Line) : Machine :=
  if m.result.isSome then m
  else
    match m.mode with
    | .run => m.runLine text line
    | .skip braces => m.skipLine braces line
    | .seek letter braces => m.seekLine letter braces line

def execAll (text : List QChar) (m : Machine) (lines : List Line) : Machine :=
  lines.foldl (exec text) m

end Machine

/-! ## The writer -/

/-- `chars` and `checkTypes` grow and shrink together: they are kept as one list, the last
check first. -/
structure Writer where
  checks : List (QChar × UsedCheckType) := []
  lengthsCounted : List (List QChar) := []
  lines : List Line := []
  deriving DecidableEq, Repr

def charsOf (checks : List (QChar × UsedCheckType)) : List QChar :=
  (checks.map Prod.fst).reverse

namespace Writer

def chars (w : Writer) : List QChar :=
  charsOf w.checks

def write (w : Writer) (lines : List Line) : Writer :=
  { w with lines := w.lines ++ lines }

/-- The lines written and the checks left, and whether at least one check was finished. -/
def finishChecksTillKey (key : List QChar) :
    List (QChar × UsedCheckType) → List Line × List (QChar × UsedCheckType) × Bool
  | [] => ([], [], false)
  | (c, wasType) :: checks =>
    let chars := charsOf ((c, wasType) :: checks)
    if key.take chars.length = chars then ([], (c, wasType) :: checks, false)
    else
      let chars := charsOf checks
      let broken := if wasType = .bySwitch then [Line.breakSwitch] else []
      let closed :=
        if (chars ≠ [] ∧ key.take chars.length ≠ chars) ∨ key = chars then [Line.close] else []
      let (lines, checks, _) := finishChecksTillKey key checks
      (broken ++ closed ++ lines, checks, true)

/-- `items` are those behind the item of the key. -/
def canUseIfForCheck (key : List QChar) (charIndex : Nat) : List (List QChar × Nat) → Bool
  | [] => true
  | (nextKey, _) :: items =>
    if nextKey.take charIndex ≠ key.take charIndex then true
    else if charIndex < nextKey.length ∧ nextKey[charIndex]? ≠ key[charIndex]? then false
    else canUseIfForCheck key charIndex items

def countLength (w : Writer) (key : List QChar) : Writer :=
  if key ∈ w.lengthsCounted then w
  else { w.write [.countLength] with lengthsCounted := key :: w.lengthsCounted }

/-- The loop over the letters of a key that are not checked yet. -/
def writeChecks (d : Dictionary) (skipPostfixes : Bool) (key : List QChar)
    (items : List (List QChar × Nat)) : Bool → List QChar → Writer → Writer
  | _, [], w => w
  | weContinueOldSwitch, keyChar :: more, w =>
    let checking := w.chars.length
    let partialKey := key.take checking
    let w := if partialKey ∈ d.keys then w.countLength partialKey else w
    let usedIfForCheck := !weContinueOldSwitch && canUseIfForCheck key checking items
    let w := if !weContinueOldSwitch && !usedIfForCheck then w.write [.openSwitch] else w
    let w := w.write [if usedIfForCheck then .openIf keyChar else .caseOf keyChar]
    let w := w.write [.next skipPostfixes]
    let checkType := if usedIfForCheck then .byIf else .bySwitch
    writeChecks d skipPostfixes key items false more
      { w with checks := (keyChar, checkType) :: w.checks }

/-- What is written for an item with the items behind it. -/
def writeItem (d : Dictionary) (skipPostfixes : Bool) (postfixRequired : List Nat)
    (key : List QChar) (index : Nat) (items : List (List QChar × Nat)) (w : Writer) : Writer :=
  let (lines, checks, weContinueOldSwitch) := finishChecksTillKey key w.checks
  let w := { w.write lines with checks := checks }
  let w := writeChecks d skipPostfixes key items weContinueOldSwitch
    (key.drop w.chars.length) w
  let w := if index ∈ postfixRequired then w.write [.requirePostfix] else w
  let w := w.countLength key
  w.write [.returnIndex (index + 1)]

def writeItems (d : Dictionary) (skipPostfixes : Bool) (postfixRequired : List Nat) :
    List (List QChar × Nat) → Writer → Writer
  | [], w => w
  | (key, index) :: items, w =>
    writeItems d skipPostfixes postfixRequired items
      (w.writeItem d skipPostfixes postfixRequired key index items)

end Writer

def writeFindFromDictionary (d : Dictionary) (skipPostfixes : Bool)
    (postfixRequired : List Nat) : List Line :=
  let w := Writer.writeItems d skipPostfixes postfixRequired d.items {}
  w.lines ++ (Writer.finishChecksTillKey [] w.checks).1 ++ [.returnIndex 0]

/-- What the written function returns and stores for a text. -/
def find (d : Dictionary) (skipPostfixes : Bool) (postfixRequired : List Nat)
    (text : List QChar) : Machine :=
  Machine.execAll text {} (writeFindFromDictionary d skipPostfixes postfixRequired)

end TelegramClient.Codegen
