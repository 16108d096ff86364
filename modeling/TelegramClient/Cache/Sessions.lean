import Mathlib
import TelegramClient.Cache.Contents

/-! Runs of calls on the database, over any number of sessions between which it is closed: its
values are those of a store of values under keys. -/

namespace TelegramClient.Cache

open Program

variable {env : Environment} {s t u : DatabaseObject} {key : Key} {value : TaggedValue}
  {checksum : List UInt8 → UInt32} {entry : Entry}

/-! ### Moving -/

theorem writeMultiRemove_done (hwritten : ∀ n, env.written n = none) (hopen : s.binlogOpen = true)
    (hoffset : s.binlog.offset ≤ s.binlog.data.length) :
    Ends (fun error t => error = .noError ∧ Kept s t ∧ t.binlogOpen = true) Any
      (writeMultiRemove env s) := by
  have hdone : Ends (fun error t => error = .noError ∧ t.binlogOpen = true) Any
      (writeMultiRemove env s) := by
    simp only [writeMultiRemove, ends_bind, ends_get]
    split
    · trivial
    split
    · exact ⟨rfl, hopen⟩
    · rw [ends_bind, ends_set]
      refine (writeBundle_appends hwritten ?_ ?_ _ _).imp fun _ t ht => ⟨ht.1, ?_⟩
      · exact hopen
      · exact hoffset
      · exact ht.2.isOpen.trans hopen
  exact (hdone.and writeMultiRemove_kept).imp fun _ _ ht => ⟨ht.1.1, ht.2, ht.1.2⟩

theorem writeExistingPlace_stored (hwritten : ∀ n, env.written n = none) (hopen : s.binlogOpen = true)
    (hnone : s.map[key]? = none) :
    Ends (fun _ t => t.files = s.files ∧ t.stale = s.stale ∧
      ∃ useTime, t.map = s.map.insert key (entry.withUseTime useTime)) Any
      (writeExistingPlace env key entry s) := by
  simp only [writeExistingPlace, ends_bind]
  refine writingTime_ends.imp fun time t ht => ?_
  subst ht
  split
  · trivial
  next hsize =>
  simp only [ends_bind, ends_get, hnone, ends_pure, Bool.false_eq_true, if_false]
  refine (writeStore_ends _).imp fun good t ht => ?_
  obtain ⟨hfiles, hstale, -, hgood⟩ := ht
  cases good with
  | false => exact absurd ⟨hopen, hwritten _⟩ hgood.2
  | true =>
    obtain ⟨-, -, -, useTime, hmap⟩ := hgood
    refine ⟨hfiles, hstale, useTime, hmap.trans ?_⟩
    have hmod : entry.size % 2 ^ 24 = entry.size :=
      Nat.mod_eq_of_lt (Nat.lt_of_not_le hsize)
    simp only [Store.toEntry, Store.getSize, BitVec.toNat_ofNat, hmod, Entry.withUseTime]

def moveValue (values : KeyStore Key TaggedValue) (source target : Key) :
    KeyStore Key TaggedValue :=
  if values.value target = none then
    match values.value source with
    | none => values
    | some value => (values.drop source).keep target value
  else values

theorem value_eq_none_iff : s.values.value key = none ↔ s.map[key]? = none := Option.map_eq_none_iff

theorem contains_iff_value : s.map.contains key = true ↔ ¬s.values.value key = none := by
  rw [value_eq_none_iff, Std.ExtTreeMap.contains_eq_isSome_getElem?, Option.isSome_iff_ne_none]

/-- The entry moves to the other key and keeps its place. -/
theorem moveIfEmpty_moves (hworks : Works env) (source target : Key)
    (hopen : s.binlogOpen = true) (hoffset : s.binlog.offset ≤ s.binlog.data.length)
    (hs : Sound env.checksum s) :
    Ends (fun _ t => Sound env.checksum t ∧ t.values = moveValue s.values source target) Any
      (moveIfEmpty env source target s) := by
  simp only [moveIfEmpty, ends_bind, ends_get, moveValue]
  by_cases hnone : s.values.value target = none
  · have htarget := value_eq_none_iff.mp hnone
    rw [if_neg fun h => contains_iff_value.mp h hnone, if_pos hnone, ends_bind, ends_get]
    cases hsource : s.map[source]? with
    | none =>
      rw [value_eq_none_iff.mpr hsource]
      exact ⟨hs, rfl⟩
    | some entry =>
      have hvalue : s.values.value source = some (entry.content s.files) := by
        show s.map[source]?.map _ = _
        rw [hsource, Option.map_some]
      rw [hvalue]
      simp only [ends_bind, ends_modify, ends_get, ends_lift]
      refine ⟨fun idx hidx => ?_, fun _ _ => trivial⟩
      rw [ends_set]
      have hmap : idx.map = s.map.erase source := eraseMapEntry_map hidx
      obtain ⟨s₁, hs₁⟩ : ∃ s₁ : DatabaseObject, s₁ = { s with
          toIndex := idx, removing := s.removing.insert source } := ⟨_, rfl⟩
      have hmap₁ : s₁.map = s.map.erase source := by rw [hs₁, hmap]
      have hfiles₁ : s₁.files = s.files := by rw [hs₁]
      obtain ⟨hsound₁, hvalue₁⟩ := hs.erase hmap₁ fun _ _ => by rw [hfiles₁]
      rw [← hs₁]
      refine (writeMultiRemove_done hworks.written (by rw [hs₁, hopen])
        (by rw [hs₁]; exact hoffset)).imp fun error t ht => ?_
      obtain ⟨rfl, hkept, htopen⟩ := ht
      simp only [forget, ends_bind, ends_modify]
      have htarget₁ : t.map[target]? = none := by
        rw [hkept.map, hmap₁, getElem?_erase_iff, htarget, ite_self]
      refine Ends.imp (writeExistingPlace_stored hworks.written ?_ ?_) fun _ u hu => ?_
      · exact htopen
      · exact htarget₁
      obtain ⟨hufiles, hustale, useTime, humap⟩ := hu
      have hfiles : u.files = s₁.files := hufiles.trans hkept.files
      have hmap₂ : u.map = s₁.map.insert target (entry.withUseTime useTime) := by
        rw [humap, ← hkept.map]
      have hplace : ∀ (key' : Key) (entry' : Entry), s₁.map[key']? = some entry' →
          entry'.place = (entry.withUseTime useTime).place → key' = target := by
        intro key' entry' hkey' heq
        rw [hmap₁, getElem?_erase_iff] at hkey'
        split at hkey'
        · cases hkey'
        · next hne => exact absurd (hs.apart key' source entry' entry hkey' hsource heq) hne
      have hcontent : (entry.withUseTime useTime).content u.files = entry.content s.files := by
        rw [content_withUseTime, hfiles, hfiles₁]
      obtain ⟨hsound, hvalue₂⟩ := hsound₁.insert hmap₂ (fun _ _ => by rw [hfiles]) hplace
        (by rw [hcontent]; exact hs.whole source entry hsource)
      refine ⟨hsound, ?_⟩
      rw [hcontent, hvalue₁] at hvalue₂
      have hqueue : u.values.queue = s.values.queue \ {target} := by
        have hstale : t.stale = s.stale := by rw [hkept.stale, hs₁]
        rw [values_queue, hustale, hstale]
        exact congrArg KeyStore.queue (forget_values s target)
      rw [KeyStore.keep, KeyStore.drop, ← hvalue₂, ← hqueue]
  · rw [if_pos (contains_iff_value.mpr hnone), if_neg hnone]
    exact ⟨hs, rfl⟩

/-! ### Calls -/

/-- What a call makes of the values. Pruning does nothing while there is a queue. -/
def Call.Does : Call → KeyStore Key TaggedValue → KeyStore Key TaggedValue → Prop
  | .put key value, s, t => t = putValue s key value
  | .putIfEmpty key value, s, t => t = if s.value key = none then putValue s key value else s
  | .copyIfEmpty source target, s, t =>
    t = if s.value target = none then putValue s target ((s.value source).getD {}) else s
  | .moveIfEmpty source target, s, t => t = moveValue s source target
  | .get _, s, t => t = s
  | .remove key, s, t => t = s.drop key
  | .clearByTag tag, s, t => KeyStore.Cleans (s.queue ∪ tagged s tag) s t
  | .clearStaleDelayed, s, t => KeyStore.Cleans s.queue s t
  | .waitForCleaner, s, t => KeyStore.Cleans s.queue s t ∧ t.queue = ∅
  | .prune, s, t => t = s ∨ s.queue = ∅ ∧ ∃ keys, KeyStore.Cleans keys s t
  | .writeBundles, s, t => t = s
  | .open _ _, _, _ | .close, _, _ | .clear, _, _ => False

structure Good (env : Environment) (s : DatabaseObject) : Prop where
  consistent : Consistent env.settings {} s
  sound : Sound env.checksum s

theorem Good.isOpen (h : Good env s) : s.binlogOpen = true := by
  obtain ⟨pending, ⟨system, rs, hlog, -⟩, -⟩ := h.consistent
  exact hlog.isOpen

theorem Good.offset (h : Good env s) : s.binlog.offset ≤ s.binlog.data.length := by
  obtain ⟨pending, ⟨system, rs, hlog, -⟩, -⟩ := h.consistent
  exact hlog.offset_le

theorem copyIfEmpty_copies (hworks : Works env) (hblocks : BlocksSuffice env.settings)
    (source target : Key) (hs : Good env s) :
    Ends (fun _ t => Sound env.checksum t ∧ t.values =
      if s.values.value target = none then
        putValue s.values target ((s.values.value source).getD {})
      else s.values) Any (copyIfEmpty env source target s) := by
  simp only [copyIfEmpty, ends_bind, ends_get]
  by_cases hnone : s.values.value target = none
  · rw [if_neg fun h => contains_iff_value.mp h hnone, if_pos hnone, ends_bind]
    have hget := ((get_holds hworks.written hblocks source).ends hs.consistent).and
      (get_gets hworks hs.sound)
    refine hget.imp ?_
    rintro found t ⟨ht, rfl, htouched⟩
    rw [← htouched.values]
    exact put_puts hworks (Good.isOpen ⟨ht, htouched.sound hs.sound⟩) (htouched.sound hs.sound)
  · rw [if_pos (contains_iff_value.mpr hnone), if_neg hnone]
    exact ⟨hs.sound, rfl⟩

theorem putIfEmpty_puts (hworks : Works env) (hs : Good env s) :
    Ends (fun _ t => Sound env.checksum t ∧ t.values =
      if s.values.value key = none then putValue s.values key value else s.values) Any
      (putIfEmpty env key value s) := by
  simp only [putIfEmpty, ends_bind, ends_get]
  by_cases hnone : s.values.value key = none
  · rw [if_neg fun h => contains_iff_value.mp h hnone, if_pos hnone]
    exact put_puts hworks hs.isOpen hs.sound
  · rw [if_pos (contains_iff_value.mpr hnone), if_neg hnone]
    exact ⟨hs.sound, rfl⟩

/-- Every call keeps the files of the entries whole and apart and does to the values what it says. -/
theorem call_does (hworks : Works env) (hblocks : BlocksSuffice env.settings) {call : Call}
    (hcall : call.IsOperation) (hs : Good env s) :
    Ends (fun _ t => Sound env.checksum t ∧ call.Does s.values t.values) Any (call.run env s) := by
  have hremoved := hworks.removed
  cases call with
  | «open» stored files => exact hcall.elim
  | close => exact hcall.elim
  | clear => exact hcall.elim
  | put key value => exact ends_discard.mpr (put_puts hworks hs.isOpen hs.sound)
  | putIfEmpty key value => exact ends_discard.mpr (putIfEmpty_puts hworks hs)
  | copyIfEmpty source target => exact ends_discard.mpr (copyIfEmpty_copies hworks hblocks _ _ hs)
  | moveIfEmpty source target =>
    exact ends_discard.mpr (moveIfEmpty_moves hworks source target hs.isOpen hs.offset hs.sound)
  | get key =>
    refine ends_discard.mpr ((get_gets hworks hs.sound).imp fun _ t ht => ?_)
    exact ⟨ht.2.sound hs.sound, ht.2.values⟩
  | remove key =>
    exact ends_discard.mpr ((remove_drops hremoved hs.sound).imp fun _ _ ht => ⟨ht.1, ht.2.1⟩)
  | clearByTag tag => exact ends_discard.mpr (clearByTag_cleans hremoved tag hs.sound)
  | clearStaleDelayed =>
    simp only [Call.run, clearStaleDelayed, ends_bind, ends_get]
    split
    · rw [ends_bind, ends_modify]
      exact clearStaleChunk_cleans hremoved (hs.sound.blurred (fun _ => rfl) rfl)
    · exact ⟨hs.sound, .refl _⟩
  | waitForCleaner =>
    simp only [Call.run, waitForCleaner, ends_bind, ends_get]
    refine (clearAllStale_cleans hremoved _ hs.sound).imp fun _ t ht => ⟨ht.1, ht.2.1, ?_⟩
    rw [values_queue, ht.2.2]
    exact Set.eq_empty_of_forall_notMem fun _ hkey => List.not_mem_nil hkey
  | prune => exact prune_cleans hremoved hs.sound
  | writeBundles =>
    refine (writeBundles_flushed hworks.written hblocks hs.consistent).imp fun _ t ht => ?_
    exact ⟨hs.sound.blurred ht.blurred ht.files, values_eq (value_blurred ht.blurred ht.files) ht.stale⟩

theorem calls_run (hworks : Works env) (hblocks : BlocksSuffice env.settings) {calls : List Call}
    (hcalls : ∀ call ∈ calls, call.IsOperation) (hs : Good env s) :
    Ends (fun _ t => Good env t ∧ KeyStore.Runs Call.Does calls s.values t.values) Any
      (calls.forM (Call.run env) s) := by
  induction calls generalizing s with
  | nil => exact ⟨hs, rfl⟩
  | cons call calls ih =>
    have hcall := hcalls call List.mem_cons_self
    have hrest : ∀ call' ∈ calls, call'.IsOperation :=
      fun call' hmem => hcalls call' (List.mem_cons_of_mem _ hmem)
    have hstep := ((call_holds hworks.written hblocks hcall).ends hs.consistent).and
      (call_does hworks hblocks hcall hs)
    simp only [List.forM, ends_bind]
    refine hstep.imp ?_
    rintro _ t ⟨ht, hsound, hdoes⟩
    exact (ih hrest ⟨ht, hsound⟩).imp fun _ u hu => ⟨hu.1, t.values, hdoes, hu.2⟩

/-! ### Sessions -/

/-- What stays when the database is closed. -/
structure Disk where
  stored : List UInt8 := []
  files : PlaceId → Option (List UInt8) := fun _ => none

/-- A database that is opened on the disk has these values. -/
def Disk.Keeps (settings : Settings) (checksum : List UInt8 → UInt32) (disk : Disk)
    (value : Key → Option TaggedValue) : Prop :=
  disk.stored = [] ∧ (value = fun _ => none) ∨
  ∃ system rs s, disk.stored = logBytes settings system rs ∧ (∀ r ∈ rs, Readable settings r) ∧
    Told settings system rs disk.files s ∧ Sound checksum s ∧ value = s.values.value

theorem Disk.Keeps.clean {settings : Settings} {disk : Disk} {value : Key → Option TaggedValue}
    (h : disk.Keeps settings checksum value) : Clean settings disk.stored := by
  rcases h with ⟨hnil, -⟩ | ⟨system, rs, -, hstored, hrs, -⟩
  · exact .inl hnil
  · exact .inr ⟨system, rs, hstored, hrs⟩

theorem open_good {disk : Disk} {value : Key → Option TaggedValue} (hworks : Works env)
    (hblocks : BlocksSuffice env.settings) (h : disk.Keeps env.settings env.checksum value) :
    Ends (fun _ t => Good env t ∧ t.values = { value, queue := ∅ }) Any
      (Cache.open env disk.stored disk.files {}) := by
  have hqueue : ∀ t : DatabaseObject, t.stale = [] → t.values.queue = ∅ := by
    intro t ht
    rw [values_queue, ht]
    exact Set.eq_empty_of_forall_notMem fun _ hkey => List.not_mem_nil hkey
  have hopen : Ends (fun _ t => Sound env.checksum t ∧ t.values = { value, queue := ∅ }) Any
      (Cache.open env disk.stored disk.files {}) := by
    rcases h with ⟨hnil, rfl⟩ | ⟨system, rs, s, hstored, hrs, htold, hsound, rfl⟩
    · rw [hnil]
      refine (open_new disk.files hblocks (hworks.opened 0) hworks.written).mono ?_
        fun _ h => h.elim
      rintro _ t ⟨system, ht⟩
      have hnone : ∀ key : Key, t.map[key]? = none := ht.map
      refine ⟨⟨fun key _ entry _ hkey => ?_, fun key entry hkey => ?_⟩, ?_⟩
      · rw [hnone] at hkey
        cases hkey
      · rw [hnone] at hkey
        cases hkey
      · rw [← hqueue t ht.stale, DatabaseObject.values, KeyStore.mk.injEq]
        exact ⟨funext fun key => by rw [hnone]; rfl, rfl⟩
    · rw [hstored]
      refine (open_told system disk.files hblocks (hworks.opened 0) hrs).mono ?_ fun _ h => h.elim
      intro _ t ht
      have hmap : ∀ key : Key, t.map[key]?.map (Entry.withUseTime 0) =
          s.map[key]?.map (Entry.withUseTime 0) := fun key => by rw [ht.map, htold.map]
      have hfiles : t.files = s.files := ht.files.trans htold.files.symm
      refine ⟨hsound.blurred hmap hfiles, ?_⟩
      rw [← value_blurred hmap hfiles, ← hqueue t ht.stale]
  refine ((open_consistent hworks.written hblocks (hworks.opened 0) h.clean).and hopen).imp ?_
  exact fun _ t ht => ⟨⟨ht.1, ht.2.1⟩, ht.2.2⟩

theorem after_good {disk : Disk} {value : Key → Option TaggedValue} {calls : List Call}
    (hworks : Works env) (hblocks : BlocksSuffice env.settings)
    (h : disk.Keeps env.settings env.checksum value) (hcalls : ∀ call ∈ calls, call.IsOperation)
    (hs : After env (.open disk.stored disk.files :: calls) s) :
    Good env s ∧ KeyStore.Runs Call.Does calls { value, queue := ∅ } s.values := by
  have hends : Ends (fun _ t => Good env t ∧
        KeyStore.Runs Call.Does calls { value, queue := ∅ } t.values) Any
      ((Call.run env (.open disk.stored disk.files) >>= fun _ => calls.forM (Call.run env)) {}) := by
    rw [ends_bind, Call.run, ends_discard]
    refine (open_good hworks hblocks h).imp fun _ t ht => ?_
    rw [← ht.2]
    exact calls_run hworks hblocks hcalls ht.1
  have hafter : (Call.run env (.open disk.stored disk.files) >>= fun _ =>
      calls.forM (Call.run env)) {} = .ok ((), s) := hs
  rwa [hafter] at hends

theorem close_keeps_values {c : DatabaseObject} (hworks : Works env)
    (hblocks : BlocksSuffice env.settings) (hs : Good env s) (hc : close env s = .ok ((), c)) :
    Disk.Keeps env.settings env.checksum { stored := c.binlog.data, files := c.files }
      s.values.value := by
  obtain ⟨u, system, rs, hclosed⟩ := hs.consistent.closed hworks.written hblocks hc
  have hflushed := hclosed.flushed
  have hsound := hs.sound.blurred hflushed.blurred hflushed.files
  have hvalue := value_blurred hflushed.blurred hflushed.files
  refine .inr ⟨system, rs, { u with stale := [] }, ?_, hclosed.log.readable,
    ⟨hclosed.map, hclosed.files.symm, rfl⟩, hsound.blurred (fun _ => rfl) rfl, ?_⟩
  · rw [hclosed.binlog, hclosed.log.data, Torn.left, List.drop_nil, List.append_nil]
  · rw [← hvalue]
    rfl

/-- One session: the database is opened, called and closed. -/
def Session (settings : Settings) (checksum : List UInt8 → UInt32) (disk : Disk)
    (calls : List Call) (disk' : Disk) : Prop :=
  ∃ env s c, env.settings = settings ∧ env.checksum = checksum ∧ Works env ∧
    After env (.open disk.stored disk.files :: calls) s ∧ close env s = .ok ((), c) ∧
    disk' = { stored := c.binlog.data, files := c.files }

def LeadsTo (settings : Settings) (checksum : List UInt8 → UInt32) :
    List (List Call) → Disk → Disk → Prop
  | [], disk, disk' => disk' = disk
  | calls :: sessions, disk, disk' => ∃ between, Session settings checksum disk calls between ∧
      LeadsTo settings checksum sessions between disk'

theorem sessions_keep {settings : Settings} (hblocks : BlocksSuffice settings)
    {sessions : List (List Call)}
    (hsessions : ∀ calls ∈ sessions, ∀ call ∈ calls, call.IsOperation) {disk disk' : Disk}
    {value : Key → Option TaggedValue} (h : disk.Keeps settings checksum value)
    (hleads : LeadsTo settings checksum sessions disk disk') :
    ∃ value', KeyStore.Sessions Call.Does sessions value value' ∧
      disk'.Keeps settings checksum value' := by
  induction sessions generalizing disk value with
  | nil => exact ⟨value, rfl, hleads ▸ h⟩
  | cons calls sessions ih =>
    obtain ⟨between, ⟨env, s, c, rfl, rfl, hworks, hs, hc, rfl⟩, hrest⟩ := hleads
    obtain ⟨hgood, hruns⟩ := after_good hworks hblocks h (hsessions calls List.mem_cons_self) hs
    obtain ⟨value', hsessions', hkeeps⟩ := ih
      (fun calls' hmem => hsessions calls' (List.mem_cons_of_mem _ hmem))
      (close_keeps_values hworks hblocks hgood hc) hrest
    exact ⟨value', ⟨s.values, hruns, hsessions'⟩, hkeeps⟩

/-- The database is a store of values under keys, whatever is called in whatever sessions: what is
answered for a key is the value of the store, and no two entries share a file. -/
theorem values_persist (settings : Settings) (checksum : List UInt8 → UInt32)
    (hblocks : BlocksSuffice settings) (sessions : List (List Call))
    (hsessions : ∀ calls ∈ sessions, ∀ call ∈ calls, call.IsOperation) (disk : Disk)
    (hleads : LeadsTo settings checksum sessions {} disk) (env : Environment)
    (hsettings : env.settings = settings) (hchecksum : env.checksum = checksum) (hworks : Works env)
    (calls : List Call) (hcalls : ∀ call ∈ calls, call.IsOperation) (s : DatabaseObject)
    (hs : After env (.open disk.stored disk.files :: calls) s) :
    ∃ value, KeyStore.Sessions Call.Does sessions (fun _ => none) value ∧
      KeyStore.Runs Call.Does calls { value, queue := ∅ } s.values ∧
      (∀ (key key' : Key) (entry entry' : Entry), s.map[key]? = some entry →
        s.map[key']? = some entry' → entry.place = entry'.place → key = key') ∧
      ∀ key found t, Cache.get env key s = .ok (found, t) →
        found = (s.values.value key).getD {} := by
  obtain ⟨value, hvalue, hkeeps⟩ := sessions_keep hblocks hsessions (.inl ⟨rfl, rfl⟩) hleads
  subst hsettings
  subst hchecksum
  obtain ⟨hgood, hruns⟩ := after_good hworks hblocks hkeeps hcalls hs
  refine ⟨value, hvalue, hruns, hgood.sound.apart, fun key found t hget => ?_⟩
  have hends : Ends (fun found t => found = (s.values.value key).getD {} ∧ Touched s t) Any
      (Cache.get env key s) := get_gets hworks hgood.sound
  rw [hget] at hends
  exact hends.1

def moved : List Call :=
  [.put ⟨0, 1⟩ { bytes := [1], tag := 7 }, .moveIfEmpty ⟨0, 1⟩ ⟨0, 2⟩, .put ⟨0, 1⟩ { bytes := [2] }]

def closedAfter (calls : List Call) : DatabaseObject :=
  outcome (close (calm laterOn) (stateAfter (calm laterOn) (.open [] (fun _ => none) :: calls)))

def diskAfter (calls : List Call) : Disk where
  stored := (closedAfter calls).binlog.data
  files := (closedAfter calls).files

theorem moved_session : Session defaultSettings (calm laterOn).checksum {} moved
    (diskAfter moved) :=
  ⟨calm laterOn, stateAfter (calm laterOn) (.open [] (fun _ => none) :: moved), closedAfter moved,
    rfl, rfl, ⟨fun _ => rfl, fun _ => rfl, fun _ => rfl⟩, ok_outcome (by decide +kernel),
    ok_outcome (by decide +kernel), rfl⟩

/-- A value that was moved is removed with its tag in the next session. -/
theorem values_persist_moved :
    let s := stateAfter (calm laterOn)
      [.open (diskAfter moved).stored (diskAfter moved).files, .clearByTag 7, .get ⟨0, 1⟩]
    ∃ value, KeyStore.Sessions Call.Does [moved] (fun _ => none) value ∧
      KeyStore.Runs Call.Does [.clearByTag 7, .get ⟨0, 1⟩] { value, queue := ∅ } s.values ∧
      (∀ (key key' : Key) (entry entry' : Entry), s.map[key]? = some entry →
        s.map[key']? = some entry' → entry.place = entry'.place → key = key') ∧
      ∀ key found t, Cache.get (calm laterOn) key s = .ok (found, t) →
        found = (s.values.value key).getD {} :=
  values_persist defaultSettings _ ⟨by decide, by decide, by decide⟩ [moved]
    (by simp [moved, Call.IsOperation]) (diskAfter moved) ⟨_, moved_session, rfl⟩ (calm laterOn)
    rfl rfl ⟨fun _ => rfl, fun _ => rfl, fun _ => rfl⟩ [.clearByTag 7, .get ⟨0, 1⟩]
    (by simp [Call.IsOperation]) _ (ok_outcome (by decide +kernel))

end TelegramClient.Cache
