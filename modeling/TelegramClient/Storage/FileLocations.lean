import Mathlib
import TelegramClient.Lang.ValueParser

/-! The index of downloaded files: their locations by media key, the newest first, the key of each
file by its name, and keys that stand for other keys. A file has no bookmark, as on every system
but macOS, so that its name is that of its location. -/

namespace TelegramClient.Local

open Lang (QString)

abbrev MediaKey := UInt64 × UInt64

structure FileLocation where
  fname : QString := []
  modified : Int := 0
  size : Int32 := 0
  deriving DecidableEq, Repr

/-- The size and the time of a readable file. -/
abbrev Disk := QString → Option (Nat × Int)

def FileLocation.check (disk : Disk) (loc : FileLocation) : Bool :=
  loc.fname ≠ [] ∧ ∃ file ∈ disk loc.fname,
    file.1 < 2 ^ 31 ∧ (file.1 : Int) = loc.size.toInt ∧ file.2 = loc.modified

structure FileLocations where
  locations : MediaKey → List FileLocation := fun _ => []
  pairs : QString → Option (MediaKey × FileLocation) := fun _ => none
  aliases : MediaKey → Option MediaKey := fun _ => none

namespace FileLocations

def insertLocation (s : FileLocations) (key : MediaKey) (loc : FileLocation) : FileLocations :=
  { s with locations := Function.update s.locations key (loc :: s.locations key) }

def insertPair (s : FileLocations) (key : MediaKey) (loc : FileLocation) : FileLocations :=
  { s with pairs := Function.update s.pairs loc.fname (some (key, loc)) }

/-- The state that is read from the file: the records before its end mark, then the aliases. -/
def readLocations (records : List (MediaKey × FileLocation))
    (aliases : List (MediaKey × MediaKey)) : FileLocations :=
  let s := records.foldl (fun s r => (s.insertLocation r.1 r.2).insertPair r.1 r.2) {}
  aliases.foldl (fun s a => { s with aliases := Function.update s.aliases a.1 (some a.2) }) s

def resolve (s : FileLocations) (location : MediaKey) : MediaKey :=
  (s.aliases location).getD location

/-- The search for a location among those of its key. The iterator stays where it is when the
location under it is another one. -/
def eraseSearch (loc : FileLocation) : Nat → List FileLocation → Option (List FileLocation)
  | 0, _ => none
  | _ + 1, [] => some []
  | fuel + 1, j :: rest => if j = loc then some rest else eraseSearch loc fuel (j :: rest)

def insert (s : FileLocations) (location : MediaKey) (loc : FileLocation) : FileLocations :=
  (s.insertLocation location loc).insertPair location loc

/-- No result means that the search has not ended within its fuel. -/
def writeFileLocation (fuel : Nat) (s : FileLocations) (location : MediaKey)
    (loc : FileLocation) : Option FileLocations :=
  if loc.fname = [] then some s
  else
    let location := s.resolve location
    match s.pairs loc.fname with
    | none => some (s.insert location loc)
    | some (key, known) =>
      if known = loc then
        if key ≠ location then
          some { s with aliases := Function.update s.aliases location (some key) }
        else some s
      else if key ≠ location then
        match eraseSearch known fuel (s.locations key) with
        | none => none
        | some left =>
          some ({ s with
            locations := Function.update s.locations key left
            pairs := Function.update s.pairs loc.fname none }.insert location loc)
      else some (s.insert location loc)

/-- The locations of a key until one of them is still the file on the disk. -/
def readChecked (disk : Disk) (key : MediaKey) : List FileLocation → FileLocations →
    FileLocation × FileLocations
  | [], s => ({}, s)
  | loc :: rest, s =>
    if loc.check disk then (loc, s)
    else
      readChecked disk key rest { s with
        locations := Function.update s.locations key rest
        pairs := Function.update s.pairs loc.fname none }

/-- `disk` is where the locations are checked, when they are. -/
def readFileLocation (s : FileLocations) (location : MediaKey) (disk : Option Disk) :
    FileLocation × FileLocations :=
  let location := s.resolve location
  match disk with
  | none => ((s.locations location).head?.getD {}, s)
  | some disk => readChecked disk location (s.locations location) s

end FileLocations

inductive LocationCall where
  | write (location : MediaKey) (loc : FileLocation)
  | read (location : MediaKey) (disk : Option Disk)

/-- A call that returns. -/
def LocationCall.Returns (s : FileLocations) : LocationCall → FileLocations → Prop
  | .write location loc, t => ∃ fuel, s.writeFileLocation fuel location loc = some t
  | .read location disk, t => (s.readFileLocation location disk).2 = t

/-- A history of calls that have returned, from what was read from the file. -/
inductive LocationRun (start : FileLocations) : List LocationCall → FileLocations → Prop
  | start : LocationRun start [] start
  | call {calls : List LocationCall} {s t : FileLocations} {call : LocationCall}
    (before : LocationRun start calls s) (returns : call.Returns s t) :
    LocationRun start (calls ++ [call]) t

theorem LocationRun.write {start s t : FileLocations} {calls : List LocationCall}
    (before : LocationRun start calls s) (location : MediaKey) (loc : FileLocation)
    (h : s.writeFileLocation 0 location loc = some t) :
    LocationRun start (calls ++ [.write location loc]) t := .call before ⟨0, h⟩

namespace FileLocations

/-! ### The pairs are among the locations -/

/-- A pair is filed under the name of its location, which is among those of its key. -/
def Listed (s : FileLocations) : Prop :=
  ∀ name key loc, s.pairs name = some (key, loc) → loc.fname = name ∧ loc ∈ s.locations key

variable {s t : FileLocations} {location key : MediaKey} {loc known : FileLocation}

theorem Listed.insert (h : s.Listed) (location : MediaKey) (loc : FileLocation) :
    (s.insert location loc).Listed := by
  intro name key known hpair
  simp only [FileLocations.insert, insertPair, insertLocation, Function.update_apply] at hpair ⊢
  by_cases hname : name = loc.fname
  · rw [if_pos hname] at hpair
    cases hpair
    exact ⟨hname.symm, by simp⟩
  · rw [if_neg hname] at hpair
    obtain ⟨hfname, hmem⟩ := h name key known hpair
    refine ⟨hfname, ?_⟩
    split
    · next hkey => exact List.mem_cons_of_mem _ (hkey ▸ hmem)
    · exact hmem

/-- The first location of a key leaves, and with it the pair of its file. -/
theorem Listed.drop (h : s.Listed) {rest : List FileLocation} (hloc : s.locations key = loc :: rest) :
    Listed { s with
      locations := Function.update s.locations key rest
      pairs := Function.update s.pairs loc.fname none } := by
  intro name key' known hpair
  simp only [Function.update_apply] at hpair ⊢
  by_cases hname : name = loc.fname
  · simp [hname] at hpair
  · rw [if_neg hname] at hpair
    obtain ⟨hfname, hmem⟩ := h name key' known hpair
    refine ⟨hfname, ?_⟩
    split
    · next hkey =>
      rw [hkey, hloc] at hmem
      refine (List.mem_cons.mp hmem).resolve_left fun heq => hname ?_
      rw [← hfname, heq]
    · exact hmem

theorem eraseSearch_eq {fuel : Nat} {l left : List FileLocation} (hmem : loc ∈ l)
    (h : eraseSearch loc fuel l = some left) : l = loc :: left := by
  induction fuel with
  | zero => cases h
  | succ fuel ih =>
    cases l with
    | nil => cases hmem
    | cons j rest =>
      rw [eraseSearch] at h
      split at h
      · next hj =>
        cases h
        rw [hj]
      · exact ih h

theorem Listed.write (h : s.Listed) {fuel : Nat}
    (hwrite : s.writeFileLocation fuel location loc = some t) : t.Listed := by
  simp only [writeFileLocation] at hwrite
  split at hwrite
  · cases hwrite
    exact h
  split at hwrite
  · cases hwrite
    exact h.insert _ _
  · next key known hpair =>
    split at hwrite
    · split at hwrite <;> cases hwrite <;> exact h
    split at hwrite
    · split at hwrite
      · cases hwrite
      · next left hsearch =>
        cases hwrite
        obtain ⟨hfname, hmem⟩ := h _ _ _ hpair
        rw [← hfname]
        exact (h.drop (eraseSearch_eq hmem hsearch)).insert _ _
    · cases hwrite
      exact h.insert _ _

theorem Listed.readChecked (disk : Disk) (h : s.Listed) {l : List FileLocation}
    (hl : s.locations key = l) : (readChecked disk key l s).2.Listed := by
  induction l generalizing s with
  | nil => exact h
  | cons loc rest ih =>
    rw [FileLocations.readChecked]
    split
    · exact h
    · exact ih (h.drop hl) (by simp)

theorem Listed.read (h : s.Listed) (location : MediaKey) (disk : Option Disk) :
    (s.readFileLocation location disk).2.Listed := by
  cases disk with
  | none => exact h
  | some disk => exact h.readChecked disk rfl

theorem listed_readLocations (records : List (MediaKey × FileLocation))
    (aliases : List (MediaKey × MediaKey)) : (readLocations records aliases).Listed := by
  have hrecords : ∀ s : FileLocations, s.Listed → (records.foldl (fun s r =>
      (s.insertLocation r.1 r.2).insertPair r.1 r.2) s).Listed := by
    induction records with
    | nil => exact fun s hs => hs
    | cons r records ih => exact fun s hs => ih _ (hs.insert r.1 r.2)
  have haliases : ∀ s : FileLocations, s.Listed → (aliases.foldl (fun s a =>
      { s with aliases := Function.update s.aliases a.1 (some a.2) }) s).Listed := by
    induction aliases with
    | nil => exact fun s hs => hs
    | cons a aliases ih => exact fun s hs => ih _ hs
  exact haliases _ (hrecords _ fun name key loc hpair => by cases hpair)

theorem Listed.run {start : FileLocations} (h : start.Listed) {calls : List LocationCall}
    (hrun : LocationRun start calls s) : s.Listed := by
  induction hrun with
  | start => exact h
  | @call calls s t call _ returns ih =>
    cases call with
    | write location loc =>
      obtain ⟨fuel, hwrite⟩ := returns
      exact ih.write hwrite
    | read location disk => exact returns ▸ ih.read location disk

/-! ### Writing and reading back -/

/-- The search ends: where a changed file moves to another key, the location it has had is the
newest one of its old key. -/
def Progresses (s : FileLocations) (location : MediaKey) (loc : FileLocation) : Prop :=
  ∀ key known, s.pairs loc.fname = some (key, known) → known ≠ loc → key ≠ s.resolve location →
    (s.locations key).head? = some known

/-- A known file is the newest one of the key that is read: of its own key when the key that is
written resolves to it or to itself, otherwise of the key that stood for the written one before. -/
def Current (s : FileLocations) (location : MediaKey) (loc : FileLocation) : Prop :=
  ∀ key, s.pairs loc.fname = some (key, loc) →
    (s.locations (if key = s.resolve location ∨ location = s.resolve location then key
      else s.resolve location)).head? = some loc

theorem eraseSearch_stuck {j : FileLocation} {rest : List FileLocation} (hj : j ≠ loc) (fuel : Nat) :
    eraseSearch loc fuel (j :: rest) = none := by
  induction fuel with
  | zero => rfl
  | succ fuel ih => rw [eraseSearch, if_neg hj, ih]

theorem read_insert (s : FileLocations) (location : MediaKey) (loc : FileLocation) :
    (((s.insert (s.resolve location) loc).readFileLocation location none).1) = loc := by
  simp [readFileLocation, insert, insertLocation, insertPair, resolve]

theorem resolve_update (s : FileLocations) (location key : MediaKey) :
    resolve { s with aliases := Function.update s.aliases (s.resolve location) (some key) } location =
      if location = s.resolve location then key else s.resolve location := by
  change (Function.update s.aliases (s.resolve location) (some key) location).getD location = _
  by_cases h : location = s.resolve location
  · rw [if_pos h, Function.update_apply, if_pos h, Option.getD_some]
  · rw [if_neg h, Function.update_apply, if_neg h]
    rfl

theorem getD_head_eq_iff (hloc : loc.fname ≠ []) {l : List FileLocation} :
    l.head?.getD {} = loc ↔ l.head? = some loc := by
  cases l with
  | nil =>
    simp only [List.head?_nil, Option.getD_none, reduceCtorEq, iff_false]
    rintro rfl
    exact hloc rfl
  | cons j rest => simp

theorem write_iff (h : s.Listed) (hloc : loc.fname ≠ []) :
    (∃ t, (LocationCall.write location loc).Returns s t ∧ (t.readFileLocation location none).1 = loc) ↔
      s.Progresses location loc ∧ s.Current location loc := by
  simp only [LocationCall.Returns, writeFileLocation, if_neg hloc, Progresses, Current]
  cases hpair : s.pairs loc.fname with
  | none =>
    simp only [reduceCtorEq, false_implies, implies_true, and_true, iff_true]
    exact ⟨_, ⟨0, rfl⟩, read_insert s location loc⟩
  | some pair =>
    obtain ⟨key, known⟩ := pair
    by_cases hknown : known = loc
    · subst hknown
      by_cases hkey : key = s.resolve location
      · simp [hkey, readFileLocation, getD_head_eq_iff hloc]
      · have hread := resolve_update s location key
        simp [hkey, readFileLocation, getD_head_eq_iff hloc, hread]
    · by_cases hkey : key = s.resolve location
      · simp [hknown, hkey, read_insert]
      · have hmem := (h _ _ _ hpair).2
        simp only [hknown, if_false, ne_eq, hkey, not_false_eq_true, if_true, Option.some.injEq,
          Prod.mk.injEq, and_imp, and_false, false_implies, implies_true, and_true]
        constructor
        · rintro ⟨t, ⟨fuel, hwrite⟩, -⟩ key' known' rfl rfl - -
          split at hwrite
          · cases hwrite
          · next left hsearch => rw [eraseSearch_eq hmem hsearch, List.head?_cons]
        · intro hhead
          have hfirst := hhead key known rfl rfl hknown hkey
          obtain ⟨rest, hrest⟩ := List.head?_eq_some_iff.mp hfirst
          refine ⟨_, ⟨1, ?_⟩, read_insert { s with
            locations := Function.update s.locations key rest
            pairs := Function.update s.pairs loc.fname none } location loc⟩
          rw [hrest, eraseSearch, if_pos rfl]
          rfl

/-- Every history keeps the pairs among the locations, and the next write ends and is read back
exactly under the two conditions. -/
theorem writeFileLocation_iff (records : List (MediaKey × FileLocation))
    (aliases : List (MediaKey × MediaKey)) (calls : List LocationCall) (s : FileLocations)
    (hrun : LocationRun (readLocations records aliases) calls s) :
    (∀ name key loc, s.pairs name = some (key, loc) → loc ∈ s.locations key) ∧
    (∀ location disk, ∃ t, (LocationCall.read location disk).Returns s t) ∧
    (∀ location loc, loc.fname = [] → (LocationCall.write location loc).Returns s s) ∧
    ∀ location loc, loc.fname ≠ [] →
      ((∃ t, (LocationCall.write location loc).Returns s t ∧
          (t.readFileLocation location none).1 = loc) ↔
        s.Progresses location loc ∧ s.Current location loc) := by
  have hlisted := (listed_readLocations records aliases).run hrun
  refine ⟨fun name key loc hpair => (hlisted name key loc hpair).2, fun _ _ => ⟨_, rfl⟩,
    fun location loc hempty => ⟨0, ?_⟩, fun _ _ hloc => write_iff hlisted hloc⟩
  rw [writeFileLocation, if_pos hempty]

/-! ### A search that never ends, and a key that stands for another one -/

def fileA (size : Int32) : FileLocation := { fname := [0x61], size }

def fileB : FileLocation := { fname := [0x62] }

/-- Two files of one key: the older one is found behind the newer one when it moves to another key. -/
def twoFiles : FileLocations :=
  (({} : FileLocations).insert (0, 1) (fileA 0)).insert (0, 1) fileB

/-- The second key stands for the first one, and another key has another file. -/
def standsFor : FileLocations :=
  { ({} : FileLocations).insert (0, 1) (fileA 0) with
    aliases := Function.update (fun _ => none) (0, 2) (some (0, 1)) }.insert (0, 3) fileB

theorem run_twoFiles : LocationRun (readLocations [] [])
    [.write (0, 1) (fileA 0), .write (0, 1) fileB] twoFiles :=
  (LocationRun.start.write (0, 1) (fileA 0) rfl).write (0, 1) fileB rfl

theorem run_standsFor : LocationRun (readLocations [] [])
    [.write (0, 1) (fileA 0), .write (0, 2) (fileA 0), .write (0, 3) fileB] standsFor :=
  ((LocationRun.start.write (0, 1) (fileA 0) rfl).write (0, 2) (fileA 0) rfl).write (0, 3) fileB rfl

theorem write_stuck_or_unread :
    (∃ calls s, LocationRun (readLocations [] []) calls s ∧
      ∀ t, ¬(LocationCall.write (0, 2) (fileA 1)).Returns s t) ∧
    ∃ calls s, LocationRun (readLocations [] []) calls s ∧
      ∀ t, (LocationCall.write (0, 2) fileB).Returns s t →
        (t.readFileLocation (0, 2) none).1 = fileA 0 := by
  refine ⟨⟨_, _, run_twoFiles, ?_⟩, _, _, run_standsFor, ?_⟩
  · rintro t ⟨fuel, hwrite⟩
    have hsearch : twoFiles.writeFileLocation fuel (0, 2) (fileA 1) =
        match eraseSearch (fileA 0) fuel [fileB, fileA 0] with
        | none => none
        | some left => some ({ twoFiles with
            locations := Function.update twoFiles.locations (0, 1) left
            pairs := Function.update twoFiles.pairs [0x61] none }.insert (0, 2) (fileA 1)) := rfl
    rw [hsearch, eraseSearch_stuck (by decide)] at hwrite
    cases hwrite
  · rintro t ⟨fuel, hwrite⟩
    have hresult : standsFor.writeFileLocation fuel (0, 2) fileB = some { standsFor with
        aliases := Function.update standsFor.aliases (0, 1) (some (0, 3)) } := rfl
    rw [hresult] at hwrite
    cases hwrite
    rfl

theorem writeFileLocation_iff_moved : ∃ t, (LocationCall.write (0, 2) fileB).Returns twoFiles t ∧
    (t.readFileLocation (0, 2) none).1 = fileB :=
  ((writeFileLocation_iff [] [] _ twoFiles run_twoFiles).2.2.2 (0, 2) fileB (by decide)).mpr
    ⟨fun key known hpair hknown _ => by cases hpair; exact absurd rfl hknown,
      fun key hpair => by cases hpair; rfl⟩

end FileLocations

end TelegramClient.Local
