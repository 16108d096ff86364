import Mathlib

/-! The list of rows of `dialogs_list.cpp`. The rows are linked both ways through pointers, from
`begin_` to a row `end_` that stands behind the last one. Reading through a null pointer or in a
freed row ends in `none`, and so does a loop that walks further than there were rows ever. -/

namespace TelegramClient.Dialogs

inductive SortMode where
  | date
  | name
  | add
  deriving DecidableEq, Repr

/-- What the entries of the keys say while a list is changed. -/
structure Entries (Key : Type) where
  chatListName : Key → List UInt16
  sortKeyInChatList : Key → UInt64
  /-- `QString::compare`, case insensitive -/
  compareNames : List UInt16 → List UInt16 → Int

abbrev RowId := Nat

/-- The row behind the last one has no key. -/
structure Row (Key : Type) where
  key : Option Key
  prev : Option RowId
  next : Option RowId
  pos : Int
  deriving DecidableEq, Repr

/-- The rows that are not freed. -/
abbrev Memory (Key : Type) := RowId → Option (Row Key)

/-- `Dialogs::List`, with the memory of its rows. -/
structure DialogsList (Key : Type) where
  rows : Memory Key
  fresh : RowId
  begin_ : RowId
  end_ : RowId
  sortMode : SortMode
  count : Int
  rowByKey : Key → Option RowId
  current : RowId

namespace DialogsList

variable {Key : Type} [DecidableEq Key]

def init (sortMode : SortMode) : DialogsList Key where
  rows := Function.update (fun _ => none) 0 (some ⟨none, none, none, 0⟩)
  fresh := 1
  begin_ := 0
  end_ := 0
  sortMode := sortMode
  count := 0
  rowByKey _ := none
  current := 0

variable (l : DialogsList Key)

def contains (key : Key) : Bool := (l.rowByKey key).isSome

def getRow (key : Key) : Option RowId := l.rowByKey key

def modifyRow (row : RowId) (f : Row Key → Row Key) : Option (DialogsList Key) :=
  (l.rows row).map fun r => { l with rows := Function.update l.rows row (some (f r)) }

def nextOf (row : RowId) : Option RowId := (l.rows row).bind Row.next

/-- No list has more rows than were ever created. -/
def steps : Nat := l.fresh + 1

def remove (row : RowId) : Option (DialogsList Key) := do
  let r ← l.rows row
  let next ← r.next
  let l ← l.modifyRow next fun n => { n with prev := r.prev }
  match r.prev with
  | some prev => l.modifyRow prev fun p => { p with next := some next }
  | none => some { l with begin_ := next }

/-- The rows behind `n` up to `updateTill` move down, and the row moves up. -/
def updateUp (row updateTill : RowId) : Nat → RowId → DialogsList Key → Option (DialogsList Key)
  | 0, _, _ => none
  | fuel + 1, n, l =>
    if n = updateTill then some l
    else do
      let next ← l.nextOf n
      let l ← l.modifyRow next fun r => { r with pos := r.pos + 1 }
      let l ← l.modifyRow row fun r => { r with pos := r.pos - 1 }
      updateUp row updateTill fuel next l

/-- The rows from `n` up to `row` move up, and the row moves down. -/
def updateDown (row : RowId) : Nat → RowId → DialogsList Key → Option (DialogsList Key)
  | 0, _, _ => none
  | fuel + 1, n, l =>
    if n = row then some l
    else do
      let l ← l.modifyRow n fun r => { r with pos := r.pos - 1 }
      let l ← l.modifyRow row fun r => { r with pos := r.pos + 1 }
      let next ← l.nextOf n
      updateDown row fuel next l

/-- The row is put in before another one. -/
def placeBefore (row before : RowId) : Option (DialogsList Key) := do
  let b ← l.rows before
  let l ← l.modifyRow row fun r => { r with next := some before, prev := b.prev }
  let l ← l.modifyRow before fun b => { b with prev := some row }
  match b.prev with
  | some prev => l.modifyRow prev fun p => { p with next := some row }
  | none => some { l with begin_ := row }

/-- The row is put in after another one. -/
def placeAfter (row after : RowId) : Option (DialogsList Key) := do
  let a ← l.rows after
  let next ← a.next
  let l ← l.modifyRow row fun r => { r with next := some next, prev := some after }
  let l ← l.modifyRow after fun a => { a with next := some row }
  l.modifyRow next fun n => { n with prev := some row }

/-- `before` stands somewhere before `row`, so `row` has a row before it. -/
def insertBefore (row before : RowId) : Option (Bool × DialogsList Key) :=
  if row = before then some (false, l)
  else do
    let updateTill ← (l.rows row).bind Row.prev
    let l := if l.current = row then { l with current := updateTill } else l
    let l ← l.remove row
    let l ← l.placeBefore row before
    let l ← updateUp row updateTill l.steps row l
    some (true, l)

/-- `after` stands somewhere behind `row`. -/
def insertAfter (row after : RowId) : Option (Bool × DialogsList Key) :=
  if row = after then some (false, l)
  else do
    let updateFrom ← l.nextOf row
    let l := if l.current = row then { l with current := updateFrom } else l
    let l ← l.remove row
    let l ← l.placeAfter row after
    let l ← updateDown row l.steps updateFrom l
    some (true, l)

/-- Goes back while the row before has such a key. -/
def findBack (p : Key → Bool) : Nat → RowId → Option RowId
  | 0, _ => none
  | fuel + 1, change => do
    let r ← l.rows change
    match r.prev with
    | none => some change
    | some prev =>
      let key ← (l.rows prev).bind Row.key
      if p key then findBack p fuel prev else some change

/-- Goes on while the row behind has such a key. -/
def findForward (p : Key → Bool) : Nat → RowId → Option RowId
  | 0, _ => none
  | fuel + 1, change => do
    let next ← l.nextOf change
    if next = l.end_ then some change
    else
      let key ← (l.rows next).bind Row.key
      if p key then findForward p fuel next else some change

def sortKey (e : Entries Key) (row : RowId) : Option UInt64 :=
  ((l.rows row).bind Row.key).map e.sortKeyInChatList

/-- The row that a row goes before. -/
def placeUp (e : Entries Key) (key : UInt64) (row : RowId) : Option RowId := do
  let first : Bool ←
    if row ≠ l.begin_ then (l.sortKey e l.begin_).map fun k => decide (k < key) else some false
  if first then some l.begin_
  else l.findBack (fun k => e.sortKeyInChatList k < key) l.steps row

/-- The row that a row goes behind. -/
def placeDown (e : Entries Key) (key : UInt64) (row : RowId) : Option RowId := do
  let next ← l.nextOf row
  let last := (l.rows l.end_).bind Row.prev
  let behindLast : Bool ←
    if next ≠ l.end_ then (last.bind (l.sortKey e)).map fun k => decide (key < k)
    else some false
  if behindLast then last
  else l.findForward (fun k => key < e.sortKeyInChatList k) l.steps row

/-- The row goes before `change`, or if it is `change` itself, behind the row found by a
search. -/
def moveRow (row change : RowId) (search : DialogsList Key → Option RowId) :
    Option (DialogsList Key) := do
  let (moved, l) ← l.insertBefore row change
  if moved then some l
  else
    let change ← search l
    let (_, l) ← l.insertAfter row change
    some l

def adjustByPos (e : Entries Key) (row : RowId) : Option (DialogsList Key) :=
  if l.sortMode ≠ .date then some l
  else do
    let key ← l.sortKey e row
    let change ← l.placeUp e key row
    l.moveRow row change fun l => l.placeDown e key change

/-- The list begins with the new row, or the row before it points to it. -/
def linkLast (prev : Option RowId) (result : RowId) : Option (DialogsList Key) :=
  if l.begin_ = l.end_ then some { l with begin_ := result, current := result }
  else prev.bind fun prev => l.modifyRow prev fun p => { p with next := some result }

/-- A new row behind the last one. -/
def appendRow (key : Key) : Option (RowId × DialogsList Key) := do
  let last ← l.rows l.end_
  let result := l.fresh
  let l := { l with
    rows := Function.update l.rows result (some ⟨some key, last.prev, some l.end_, last.pos⟩)
    fresh := l.fresh + 1 }
  let l ← l.modifyRow l.end_ fun r => { r with pos := r.pos + 1 }
  let l ← l.linkLast last.prev result
  let l := { l with
    rowByKey := Function.update l.rowByKey key (some ((l.rowByKey key).getD result))
    count := l.count + 1 }
  let l ← l.modifyRow l.end_ fun r => { r with prev := some result }
  some (result, l)

/-- Returns the new row as well. -/
def addToEnd (e : Entries Key) (key : Key) : Option (RowId × DialogsList Key) := do
  let (result, l) ← l.appendRow key
  if l.sortMode = .date then (l.adjustByPos e result).map fun l => (result, l)
  else some (result, l)

/-- Back while `back` holds, then on while the names before come first. -/
def placeByName (e : Entries Key) (key : Key) (back : Int → Bool) (row : RowId) :
    Option (DialogsList Key) := do
  let name := e.chatListName key
  let change ← l.findBack (fun k => back (e.compareNames (e.chatListName k) name)) l.steps row
  l.moveRow row change fun l =>
    l.findForward (fun k => e.compareNames (e.chatListName k) name < 0) l.steps change

/-- Goes back over the names that come first, where `addByName` goes over those that come
later. -/
def adjustByName (e : Entries Key) (key : Key) : Option (Option RowId × DialogsList Key) :=
  if l.sortMode ≠ .name then some (none, l)
  else
    match l.rowByKey key with
    | none => some (none, l)
    | some row => (l.placeByName e key (· < 0) row).map fun l => (some row, l)

def addByName (e : Entries Key) (key : Key) : Option (Option RowId × DialogsList Key) :=
  if l.sortMode ≠ .name then some (none, l)
  else do
    let (row, l) ← l.addToEnd e key
    (l.placeByName e key (0 < ·) row).map fun l => (some row, l)

def moveToTop (key : Key) : Option (Bool × DialogsList Key) :=
  match l.rowByKey key with
  | none => some (false, l)
  | some row => (l.insertBefore row l.begin_).map fun (_, l) => (true, l)

/-- The rows from `change` to the end move up. -/
def closeGap : Nat → RowId → DialogsList Key → Option (DialogsList Key)
  | 0, _, _ => none
  | fuel + 1, change, l =>
    if change = l.end_ then some l
    else do
      let l ← l.modifyRow change fun r => { r with pos := r.pos - 1 }
      let next ← l.nextOf change
      closeGap fuel next l

def del (key : Key) : Option (Bool × DialogsList Key) :=
  match l.rowByKey key with
  | none => some (false, l)
  | some row => do
    let next ← l.nextOf row
    let l := if row = l.current then { l with current := next } else l
    let l ← closeGap l.steps next l
    let l ← l.modifyRow l.end_ fun r => { r with pos := r.pos - 1 }
    let l ← l.remove row
    some (true, { l with
      rows := Function.update l.rows row none
      count := l.count - 1
      rowByKey := Function.update l.rowByKey key none })

/-- Back to a row that is not behind the position. -/
def currentBack (pos : Int) : Nat → DialogsList Key → Option (DialogsList Key)
  | 0, _ => none
  | fuel + 1, l => do
    let r ← l.rows l.current
    if pos < r.pos ∧ l.current ≠ l.begin_ then
      let prev ← r.prev
      currentBack pos fuel { l with current := prev }
    else some l

/-- On to a row that is not before the position. -/
def currentForward (pos : Int) : Nat → DialogsList Key → Option (DialogsList Key)
  | 0, _ => none
  | fuel + 1, l => do
    let r ← l.rows l.current
    if r.pos + 1 ≤ pos ∧ r.next ≠ some l.end_ then
      let next ← r.next
      currentForward pos fuel { l with current := next }
    else some l

/-- Division by zero is not defined. -/
def rowNumber (y h : Int) : Option Int :=
  if 0 < y then if h = 0 then none else some (y.tdiv h) else some 0

def adjustCurrent (y h : Int) : Option (DialogsList Key) :=
  if l.count = 0 then some l
  else do
    let pos ← rowNumber y h
    let l ← currentBack pos l.steps l
    currentForward pos l.steps l

def rowAtY (y h : Int) : Option (Option RowId × DialogsList Key) := do
  let l ← l.adjustCurrent y h
  if l.current = l.end_ then some (none, l)
  else
    let r ← l.rows l.current
    let pos ← rowNumber y h
    some (if r.pos ≠ pos then none else some l.current, l)

end DialogsList

end TelegramClient.Dialogs
