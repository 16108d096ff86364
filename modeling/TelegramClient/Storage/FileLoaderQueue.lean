import TelegramClient.Lib.LinkChanges

/-! The queues of `file_download.cpp`: the loaders of a queue are linked both ways through
pointers. Reading through a null pointer or in a destroyed loader ends in `none`, and so does a
loop that walks further than there were loaders ever. -/

namespace TelegramClient.Storage.Queues

abbrev LoaderId := Nat

inductive LocalStatus where
  | notTried
  | notFound
  | loading
  | loaded
  deriving DecidableEq

inductive LoadFromCloudSetting where
  | loadFromCloudOrLocal
  | loadFromLocalOnly
  deriving DecidableEq

inductive LoadToCacheSetting where
  | loadToFileOnly
  | loadToCacheAsWell
  deriving DecidableEq

/-- What a loader has besides its place in the queue. -/
structure Settings where
  paused : Bool := false
  finished : Bool := false
  cancelled : Bool := false
  localStatus : LocalStatus := .notTried
  filename : List UInt16 := []
  fileIsOpen : Bool := false
  toCache : LoadToCacheSetting := .loadToCacheAsWell
  fromCloud : LoadFromCloudSetting := .loadFromCloudOrLocal
  deriving DecidableEq

structure FileLoader extends Settings where
  prev : Option LoaderId := none
  next : Option LoaderId := none
  priority : Int := 0
  inQueue : Bool := false
  deriving DecidableEq

/-- The loaders that are not destroyed. -/
abbrev Memory := LoaderId → Option FileLoader

/-- A `FileLoaderQueue`, with the memory of its loaders and the priority of the downloader. -/
structure FileLoaderQueue where
  loaders : Memory := fun _ => none
  fresh : LoaderId := 0
  start : Option LoaderId := none
  end_ : Option LoaderId := none
  currentPriority : Int := 1

/-! ### Turned away -/

/-- What a start goes on with. -/
inductive Outcome where
  | turnedAway
  | cancelled
  | queued
  deriving DecidableEq

namespace Settings

variable (settings : Settings)

/-- `hasKey` says if there is a key in the cache to load by. -/
def tryLoadLocal (hasKey : Bool) : Settings × Bool :=
  match settings.localStatus with
  | .notFound | .loaded => (settings, false)
  | .loading => (settings, true)
  | .notTried =>
    if hasKey then ({ settings with localStatus := .loading }, true)
    else ({ settings with localStatus := .notFound }, false)

/-- `cancel`, but for the place in the queue. -/
def cancel : Settings :=
  { settings with cancelled := true, finished := true, fileIsOpen := false, filename := [] }

/-- The beginning of `start`. `opens` says if the file can be opened. -/
def prepare (hasKey opens : Bool) : Settings × Outcome :=
  let settings := { settings with paused := false }
  if settings.finished then (settings, .turnedAway)
  else
    let tried := settings.tryLoadLocal hasKey
    if tried.2 then (tried.1, .turnedAway)
    else if tried.1.fromCloud = .loadFromLocalOnly then (tried.1, .cancelled)
    else if tried.1.filename ≠ [] ∧ tried.1.toCache = .loadToFileOnly ∧ !tried.1.fileIsOpen then
      if opens then ({ tried.1 with fileIsOpen := true }, .queued)
      else (tried.1, .cancelled)
    else (tried.1, .queued)

end Settings

namespace FileLoaderQueue

variable (s : FileLoaderQueue)

def modify (loader : LoaderId) (f : FileLoader → FileLoader) : Option FileLoaderQueue :=
  (s.loaders loader).map fun l => { s with loaders := Function.update s.loaders loader (some (f l)) }

/-- A pointer that is checked before it is followed. -/
def modify? (loader : Option LoaderId) (f : FileLoader → FileLoader) : Option FileLoaderQueue :=
  match loader with
  | some loader => s.modify loader f
  | none => some s

def removeFromQueue (this : LoaderId) : Option FileLoaderQueue := do
  let l ← s.loaders this
  if !l.inQueue then return s
  let s ← s.modify? l.next fun next => { next with prev := l.prev }
  let s ← s.modify? l.prev fun prev => { prev with next := l.next }
  let s := { s with
    end_ := if s.end_ = some this then l.prev else s.end_
    start := if s.start = some this then l.next else s.start }
  s.modify this fun l => { l with next := none, prev := none, inQueue := false }

/-! ### Places -/

/-- No queue has more loaders than were ever created. -/
def steps : Nat := s.fresh + 1

/-- On from a loader while the next one has a property; `dir` tells which one is the next. -/
def walk (dir : FileLoader → Option LoaderId) (p : FileLoader → Bool) :
    Nat → LoaderId → Option LoaderId
  | 0, _ => none
  | fuel + 1, x => do
    let l ← s.loaders x
    match dir l with
    | none => return x
    | some y =>
      let next ← s.loaders y
      if p next then walk dir p fuel y else return x

/-- What becomes of the place of a loader: both pointers may be null. -/
inductive Move where
  | stay
  | move (before after : Option LoaderId)

/-- The last one behind a loader of the current priority. -/
def lastCurrent (after : LoaderId) : Option LoaderId :=
  s.walk FileLoader.next (fun l => l.priority = s.currentPriority) s.steps after

/-- The pointer is null, or the priority has the property. -/
def testPriority (loader : Option LoaderId) (p : Int → Bool) : Option Bool :=
  match loader with
  | some loader => (s.loaders loader).map fun l => p l.priority
  | none => some false

def place (l : FileLoader) (loadFirst prior : Bool) : Option Move :=
  let currentPriority := s.currentPriority
  if prior then
    if l.inQueue ∧ l.priority = currentPriority then
      if loadFirst then
        if l.prev = none then some .stay else some (.move s.start none)
      else
        match l.next with
        | none => some .stay
        | some next => do
          if ← s.testPriority (some next) (· < currentPriority) then return .stay
          return .move none (some (← s.lastCurrent next))
    else if loadFirst then
      if l.inQueue ∧ l.prev = none then some .stay else some (.move s.start none)
    else if l.inQueue then do
      if ← s.testPriority l.next (· = currentPriority) then
        let next ← l.next
        return .move none (some (← s.lastCurrent next))
      else if ← s.testPriority l.prev (· < currentPriority) then
        let prev ← l.prev
        let before ← s.walk FileLoader.prev (fun l => l.priority < currentPriority) s.steps prev
        return .move (some before) none
      else return .stay
    else do
      if ← s.testPriority s.start (· = currentPriority) then
        let first ← s.start
        return .move none (some (← s.lastCurrent first))
      else return .move s.start none
  else if loadFirst then do
    let front ← match l.prev with
      | none => some true
      | some prev => s.testPriority (some prev) (· = currentPriority)
    if l.inQueue && front then return .stay
    -- a loader that is not in the queue has no `_prev` to follow
    let prev ← l.prev
    let before ← s.walk FileLoader.prev (fun l => l.priority ≠ currentPriority) s.steps prev
    return .move (some before) none
  else if l.inQueue ∧ l.next = none then some .stay
  else some (.move none s.end_)

def insertBefore (this before : LoaderId) : Option FileLoaderQueue := do
  let l ← s.loaders this
  if some before = l.next then return s
  let b ← s.loaders before
  let s ← s.modify this fun l => { l with prev := b.prev, next := some before }
  let s ← s.modify before fun b => { b with prev := some this }
  let s ← s.modify? b.prev fun prev => { prev with next := some this }
  let start ← s.start
  let first ← s.loaders start
  return { s with start := first.prev.or s.start }

def insertAfter (this after : LoaderId) : Option FileLoaderQueue := do
  let l ← s.loaders this
  if some after = l.prev then return s
  let a ← s.loaders after
  let s ← s.modify this fun l => { l with next := a.next, prev := some after }
  let s ← s.modify after fun a => { a with next := some this }
  let s ← s.modify? a.next fun next => { next with prev := some this }
  let end_ ← s.end_
  let last ← s.loaders end_
  return { s with end_ := last.next.or s.end_ }

/-- The loader is in no queue any more. -/
def insert (this : LoaderId) (before after : Option LoaderId) : Option FileLoaderQueue := do
  let s ← s.modify this fun l => { l with inQueue := true }
  if s.start = none then return { s with start := some this, end_ := some this }
  match before, after with
  | some before, _ => s.insertBefore this before
  | none, some after => s.insertAfter this after
  | none, none => return s

/-- The rest of `start`. -/
def enqueue (this : LoaderId) (loadFirst prior : Bool) : Option FileLoaderQueue := do
  let l ← s.loaders this
  let s ← s.modify this fun l => if prior then { l with priority := s.currentPriority } else l
  match ← s.place l loadFirst prior with
  | .stay => return s
  | .move before after =>
    let s ← s.removeFromQueue this
    s.insert this before after

/-- `FileLoader::cancel` -/
def cancel (this : LoaderId) : Option FileLoaderQueue := do
  let s ← s.modify this fun l => { l with toSettings := l.toSettings.cancel }
  s.removeFromQueue this

/-- `FileLoader::start` -/
def startLoader (this : LoaderId) (loadFirst prior hasKey opens : Bool) :
    Option FileLoaderQueue := do
  let l ← s.loaders this
  let prepared := l.toSettings.prepare hasKey opens
  let s ← s.modify this fun l => { l with toSettings := prepared.1 }
  match prepared.2 with
  | .turnedAway => return s
  | .cancelled => s.cancel this
  | .queued => s.enqueue this loadFirst prior

def pause (this : LoaderId) : Option FileLoaderQueue := do
  let s ← s.removeFromQueue this
  s.modify this fun l => { l with paused := true }

/-- The destructor. -/
def destroy (this : LoaderId) : Option FileLoaderQueue := do
  let s ← s.removeFromQueue this
  return { s with loaders := Function.update s.loaders this none }

def clearPriorities : FileLoaderQueue :=
  { s with currentPriority := s.currentPriority + 1 }

/-- Another loader. -/
def create (settings : Settings) : FileLoaderQueue :=
  { s with
    loaders := Function.update s.loaders s.fresh (some { settings with })
    fresh := s.fresh + 1 }

end FileLoaderQueue

end TelegramClient.Storage.Queues
