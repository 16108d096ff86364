import Mathlib
import TelegramClient.Cache.PutAnswers
import TelegramClient.Cache.Reopening
import TelegramClient.Lib.KeyStore

/-! The database as a store of values under keys: what every call makes of the values, whose files
are never shared by two keys, and that they stay when the database is closed and opened anew. -/

namespace TelegramClient.Cache

open Program

variable {env : Environment} {s t u : DatabaseObject} {key : Key} {value : TaggedValue}
  {checksum : List UInt8 → UInt32} {entry : Entry}

/-- The value that an entry refers to. -/
def Entry.content (files : PlaceId → Option (List UInt8)) (entry : Entry) : TaggedValue :=
  { bytes := valueIn files entry.place entry.size .success, tag := entry.tag }

def DatabaseObject.values (s : DatabaseObject) : KeyStore Key TaggedValue where
  value key := s.map[key]?.map (Entry.content s.files)
  queue := { key | key ∈ s.stale }

/-- No two entries share a file, and the file of each holds a value of its size and checksum. -/
structure Sound (checksum : List UInt8 → UInt32) (s : DatabaseObject) : Prop where
  apart : ∀ (key key' : Key) (entry entry' : Entry), s.map[key]? = some entry →
    s.map[key']? = some entry' → entry.place = entry'.place → key = key'
  whole : ∀ (key : Key) (entry : Entry), s.map[key]? = some entry →
    (entry.content s.files).bytes ≠ [] ∧ (entry.content s.files).bytes.length = entry.size ∧
      checksum (entry.content s.files).bytes = entry.checksum

/-! ### Changes of the map -/

theorem content_congr {files files' : PlaceId → Option (List UInt8)}
    (h : files' entry.place = files entry.place) : entry.content files' = entry.content files := by
  simp only [Entry.content, valueIn, h]

theorem content_withUseTime (files : PlaceId → Option (List UInt8)) (useTime : UInt64) :
    (entry.withUseTime useTime).content files = entry.content files := rfl

/-- The values do not depend on use times. -/
theorem value_blurred
    (hmap : ∀ key : Key, t.map[key]?.map (Entry.withUseTime 0) =
      s.map[key]?.map (Entry.withUseTime 0))
    (hfiles : t.files = s.files) : t.values.value = s.values.value := by
  funext key
  have hkey := congrArg (Option.map (Entry.content s.files)) (hmap key)
  rw [Option.map_map, Option.map_map] at hkey
  show t.map[key]?.map (Entry.content t.files) = s.map[key]?.map (Entry.content s.files)
  rw [hfiles]
  exact hkey

theorem Sound.blurred (h : Sound checksum s)
    (hmap : ∀ key : Key, t.map[key]?.map (Entry.withUseTime 0) =
      s.map[key]?.map (Entry.withUseTime 0))
    (hfiles : t.files = s.files) : Sound checksum t := by
  have hentry : ∀ (key : Key) (entry : Entry), t.map[key]? = some entry →
      ∃ entry', s.map[key]? = some entry' ∧ entry'.withUseTime 0 = entry.withUseTime 0 := by
    intro key entry hkey
    have hsame := hmap key
    rw [hkey, Option.map_some] at hsame
    exact Option.map_eq_some_iff.mp hsame.symm
  refine ⟨fun key key' entry entry' hkey hkey' hplace => ?_, fun key entry hkey => ?_⟩
  · obtain ⟨first, hfirst, heq⟩ := hentry key entry hkey
    obtain ⟨second, hsecond, heq'⟩ := hentry key' entry' hkey'
    have hplaces : first.place = second.place :=
      (congrArg Entry.place heq).trans (hplace.trans (congrArg Entry.place heq').symm)
    exact h.apart key key' first second hfirst hsecond hplaces
  · obtain ⟨first, hfirst, heq⟩ := hentry key entry hkey
    have hcontent : entry.content t.files = first.content s.files := by
      rw [hfiles, ← content_withUseTime s.files 0, ← heq, content_withUseTime]
    have hwhole := h.whole key first hfirst
    have hsize : (first.withUseTime 0).size = (entry.withUseTime 0).size := by rw [heq]
    have hchecksum : (first.withUseTime 0).checksum = (entry.withUseTime 0).checksum := by rw [heq]
    rw [hcontent]
    exact ⟨hwhole.1, hwhole.2.1.trans hsize, hwhole.2.2.trans hchecksum⟩

/-- A map without some entries, whose files are still there. -/
theorem Sound.subset (h : Sound checksum s)
    (hmap : ∀ (key : Key) (entry : Entry), t.map[key]? = some entry →
      s.map[key]? = some entry ∧ t.files entry.place = s.files entry.place) :
    Sound checksum t := by
  refine ⟨fun key key' entry entry' hkey hkey' hplace => ?_, fun key entry hkey => ?_⟩
  · exact h.apart key key' entry entry' (hmap key entry hkey).1 (hmap key' entry' hkey').1 hplace
  · obtain ⟨hkey', hfile⟩ := hmap key entry hkey
    rw [content_congr hfile]
    exact h.whole key entry hkey'

theorem getElem?_erase_iff {map : Std.ExtTreeMap Key Entry} {key' : Key} :
    (map.erase key)[key']? = if key' = key then none else map[key']? := by
  rw [Std.ExtTreeMap.getElem?_erase]
  simp only [Std.LawfulEqCmp.compare_eq_iff_eq, eq_comm (a := key)]

/-- The entry of a key leaves, and at most its own file changes. -/
theorem Sound.erase (h : Sound checksum s) (hmap : t.map = s.map.erase key)
    (hfiles : ∀ place, (∀ entry, s.map[key]? = some entry → place ≠ entry.place) →
      t.files place = s.files place) :
    Sound checksum t ∧ t.values.value = Function.update s.values.value key none := by
  have hfile : ∀ (key' : Key) (entry : Entry), key' ≠ key → s.map[key']? = some entry →
      t.files entry.place = s.files entry.place := by
    intro key' entry hne hkey'
    refine hfiles _ fun entry' hkey hplace => ?_
    exact hne (h.apart key' key entry entry' hkey' hkey hplace)
  constructor
  · refine h.subset fun key' entry hkey' => ?_
    rw [hmap, getElem?_erase_iff] at hkey'
    split at hkey'
    · cases hkey'
    · next hne => exact ⟨hkey', hfile key' entry hne hkey'⟩
  · funext key'
    show t.map[key']?.map (Entry.content t.files) = _
    rw [hmap, getElem?_erase_iff, Function.update_apply]
    split
    · rfl
    · next hne =>
      show s.map[key']?.map (Entry.content t.files) = s.map[key']?.map (Entry.content s.files)
      cases hkey' : s.map[key']? with
      | none => rfl
      | some entry => exact congrArg some (content_congr (hfile key' entry hne hkey'))

/-- A key gets an entry that refers to a file of its own. -/
theorem Sound.insert (h : Sound checksum s) (hmap : t.map = s.map.insert key entry)
    (hfiles : ∀ place, place ≠ entry.place → t.files place = s.files place)
    (hplace : ∀ (key' : Key) (entry' : Entry), s.map[key']? = some entry' →
      entry'.place = entry.place → key' = key)
    (hwhole : (entry.content t.files).bytes ≠ [] ∧
      (entry.content t.files).bytes.length = entry.size ∧
      checksum (entry.content t.files).bytes = entry.checksum) :
    Sound checksum t ∧
      t.values.value = Function.update s.values.value key (some (entry.content t.files)) := by
  have hget : ∀ key' : Key, t.map[key']? = if key' = key then some entry else s.map[key']? := by
    intro key'
    rw [hmap, Std.ExtTreeMap.getElem?_insert]
    simp only [Std.LawfulEqCmp.compare_eq_iff_eq, eq_comm (a := key)]
  have hfile : ∀ (key' : Key) (entry' : Entry), key' ≠ key → s.map[key']? = some entry' →
      t.files entry'.place = s.files entry'.place := by
    intro key' entry' hne hkey'
    exact hfiles _ fun heq => hne (hplace key' entry' hkey' heq)
  refine ⟨⟨fun key₁ key₂ entry₁ entry₂ h₁ h₂ heq => ?_, fun key' entry' hkey' => ?_⟩, ?_⟩
  · rw [hget] at h₁ h₂
    by_cases hk₁ : key₁ = key
    · by_cases hk₂ : key₂ = key
      · exact hk₁.trans hk₂.symm
      · rw [if_pos hk₁, Option.some.injEq] at h₁
        rw [if_neg hk₂] at h₂
        exact absurd (hplace key₂ entry₂ h₂ (by rw [h₁, heq])) hk₂
    · rw [if_neg hk₁] at h₁
      by_cases hk₂ : key₂ = key
      · rw [if_pos hk₂, Option.some.injEq] at h₂
        exact absurd (hplace key₁ entry₁ h₁ (by rw [h₂, heq])) hk₁
      · rw [if_neg hk₂] at h₂
        exact h.apart key₁ key₂ entry₁ entry₂ h₁ h₂ heq
  · rw [hget] at hkey'
    split at hkey'
    · cases hkey'
      exact hwhole
    · next hne =>
      rw [content_congr (hfile key' entry' hne hkey')]
      exact h.whole key' entry' hkey'
  · funext key'
    show t.map[key']?.map (Entry.content t.files) = _
    rw [hget, Function.update_apply]
    split
    · rfl
    · next hne =>
      show s.map[key']?.map (Entry.content t.files) = s.map[key']?.map (Entry.content s.files)
      cases hkey' : s.map[key']? with
      | none => rfl
      | some entry' => exact congrArg some (content_congr (hfile key' entry' hne hkey'))

/-! ### Parts of the operations -/

/-- Everything that is asked of the operating system succeeds. -/
structure Works (env : Environment) : Prop where
  written : ∀ n, env.written n = none
  opened : ∀ n, env.opened n = .success
  removed : ∀ n, env.removed n = true

theorem values_queue (s : DatabaseObject) : s.values.queue = { key | key ∈ s.stale } := rfl

theorem values_eq (hvalue : t.values.value = s.values.value) (hstale : t.stale = s.stale) :
    t.values = s.values := by
  rw [DatabaseObject.values, DatabaseObject.values, KeyStore.mk.injEq, hstale]
  exact ⟨hvalue, rfl⟩

theorem Touched.values (h : Touched s t) : t.values = s.values :=
  values_eq (value_blurred h.map h.files) h.stale

theorem Touched.sound (h : Touched s t) (hs : Sound checksum s) : Sound checksum t :=
  hs.blurred h.map h.files

theorem remove_drops (hremoved : ∀ n, env.removed n = true) (hs : Sound checksum s) :
    Ends (fun _ t => Sound checksum t ∧ t.values = s.values.drop key ∧ t.stale = s.stale) Any
      (remove env key s) := by
  simp only [remove, ends_bind, ends_get]
  cases hk : s.map[key]? with
  | none =>
    refine ⟨hs, (KeyStore.drop_of_none ?_).symm, rfl⟩
    show s.map[key]?.map _ = none
    rw [hk, Option.map_none]
  | some entry =>
    simp only [ends_bind, ends_modify]
    refine writeMultiRemoveLazy_kept.imp fun _ t ht => ?_
    simp only [ends_get, ends_lift, ends_set]
    refine ⟨fun idx hidx => ?_, fun _ _ => trivial⟩
    have hmap := eraseMapEntry_map hidx
    rw [ht.map] at hmap
    simp only [removeFile, ends_bind, ends_ask, hremoved, if_true, ends_modify, ends_get, ends_pure]
    have hfiles : ∀ place, (∀ entry', s.map[key]? = some entry' → place ≠ entry'.place) →
        Function.update t.files entry.place none place = s.files place := by
      intro place hplace
      rw [Function.update_of_ne (hplace entry hk), ht.files]
    obtain ⟨hsound, hvalue⟩ := hs.erase (t := { t with
      toIndex := idx, asked := t.asked + 1, files := Function.update t.files entry.place none })
      hmap hfiles
    refine ⟨hsound, ?_, ht.stale⟩
    rw [KeyStore.drop, ← hvalue]
    simp only [DatabaseObject.values, ht.stale]

theorem writeValueData_files (hwritten : ∀ n, env.written n = none) (place : PlaceId)
    (bytes : List UInt8) :
    Ends (fun good t => good = true ∧ t.toIndex = s.toIndex ∧ t.stale = s.stale ∧
      (∀ other, other ≠ place → t.files other = s.files other) ∧
      valueIn t.files place bytes.length .success = bytes) Any
      (writeValueData env place bytes s) := by
  obtain ⟨offset, hwrite⟩ := writePadded_empty (fun f _ => .ok f) bytes (env.padding s.asked).toList
    (by simp [kBlockSize])
  simp only [writeValueData, ends_bind, ends_ask, ends_lift, hwrite]
  refine ⟨fun p hp => ?_, fun _ _ => trivial⟩
  cases hp
  simp only [ends_modify, ends_pure, hwritten]
  refine ⟨rfl, trivial, trivial, fun other hother => Function.update_of_ne hother _ _, ?_⟩
  refine valueIn_padded (env.padding s.asked).toList (by simp [kBlockSize]) ?_
  rw [Function.update_self]

theorem freePlace_free : Ends (fun place t => t = { s with asked := s.asked + 1 } ∧
    s.files place = none) Any (freePlace env s) := by
  simp only [freePlace, ends_bind, ends_ask, ends_get]
  split
  · trivial
  · next hfree => exact ⟨rfl, not_not.mp hfree⟩

/-- What is known when a value was given a place, or has one already. -/
def PlaceStored (env : Environment) (s : DatabaseObject) (key : Key) (value : TaggedValue) :
    Option PlaceId → DatabaseObject → Prop
  | none, t => Kept s t ∧ s.values.value key = some value
  | some place, t => t.files = s.files ∧ t.stale = s.stale ∧ ∃ entry,
      t.map = s.map.insert key entry ∧ entry.place = place ∧ sameHead env entry value ∧
      ∀ (key' : Key) (entry' : Entry), s.map[key']? = some entry' → entry'.place = place → key' = key

theorem writeStore_stored {s₁ : DatabaseObject} {record : Store}
    (hwritten : ∀ n, env.written n = none) (hopen : s₁.binlogOpen = true) (hkept : Kept s s₁)
    (hkey : record.key = key) (hhead : ∀ useTime, sameHead env (record.toEntry useTime) value)
    (hplace : ∀ (key' : Key) (entry' : Entry), s.map[key']? = some entry' →
      entry'.place = record.place → key' = key) :
    Ends (fun good t =>
        PlaceStored env s key value (if good = true then some record.place else none) t) Any
      (writeStore env record s₁) := by
  refine (writeStore_ends record).imp fun good t ht => ?_
  obtain ⟨hfiles, hstale, -, hgood⟩ := ht
  cases good with
  | false => exact absurd ⟨hopen, hwritten _⟩ hgood.2
  | true =>
    obtain ⟨-, -, -, useTime, hmap⟩ := hgood
    rw [hkept.map, hkey] at hmap
    exact ⟨hfiles.trans hkept.files, hstale.trans hkept.stale, record.toEntry useTime, hmap, rfl,
      hhead useTime, hplace⟩

theorem content_of_sameHead {files : PlaceId → Option (List UInt8)} (hhead : sameHead env entry value)
    (hvalue : valueIn files entry.place value.bytes.length .success = value.bytes) :
    entry.content files = value := by
  rw [Entry.content, hhead.1, hhead.2.1, hvalue]

theorem writeKeyPlace_stored (hworks : Works env) (hopen : s.binlogOpen = true)
    (hs : Sound env.checksum s) :
    Ends (PlaceStored env s key value) Any
      (writeKeyPlace env key value (env.checksum value.bytes) s) := by
  simp only [writeKeyPlace, ends_bind]
  refine writingTime_ends.imp fun time t ht => ?_
  subst ht
  split
  · trivial
  next hsize =>
  have hlt := env.settings.maxDataSize_lt
  have hhead : ∀ (place : PlaceId) (useTime : UInt64), sameHead env (Store.toEntry
      { tag := value.tag, size := .ofNat 24 value.bytes.length, place
        checksum := env.checksum value.bytes, key, time } useTime) value := by
    intro place useTime
    refine ⟨rfl, ?_, rfl⟩
    simp only [Store.toEntry, Store.getSize, BitVec.toNat_ofNat]
    exact Nat.mod_eq_of_lt (by simp only [kDataSizeLimit] at hlt; omega)
  simp only [ends_bind, ends_get]
  cases hk : s.map[key]? with
  | none =>
    simp only [ends_bind]
    refine freePlace_free.imp fun place t ht => ?_
    obtain ⟨rfl, hfree⟩ := ht
    refine writeStore_stored hworks.written hopen ⟨rfl, rfl, rfl⟩ rfl (hhead place) ?_
    intro key' entry' hkey' hplace
    refine absurd ?_ (hs.whole key' entry' hkey').1
    have hnone : s.files entry'.place = none := hplace ▸ hfree
    simp only [Entry.content, valueIn, hnone]
  | some already =>
    simp only [ends_bind]
    refine (holdsValue_ends already).imp fun good t ht => ?_
    obtain ⟨rfl, hgood⟩ := ht
    split
    · next htrue =>
      obtain ⟨hsame, hvalue⟩ := hgood.mp htrue
      rw [hworks.opened] at hvalue
      refine ⟨⟨rfl, rfl, rfl⟩, ?_⟩
      show s.map[key]?.map _ = _
      rw [hk, Option.map_some, content_of_sameHead hsame hvalue]
    · rw [ends_bind]
      refine writeStore_stored hworks.written hopen ⟨rfl, rfl, rfl⟩ rfl (hhead already.place) ?_
      exact fun key' entry' hkey' hplace => hs.apart key' key entry' already hkey' hk hplace

/-! ### Operations -/

/-- An empty value stands for none. -/
def putValue (values : KeyStore Key TaggedValue) (key : Key) (value : TaggedValue) :
    KeyStore Key TaggedValue :=
  if value.bytes = [] then values.drop key else values.keep key value

theorem forget_values (s : DatabaseObject) (key : Key) : DatabaseObject.values { s with
      removing := s.removing.erase key, stale := s.stale.filter (· ≠ key) } =
    { s.values with queue := s.values.queue \ {key} } := by
  simp only [DatabaseObject.values, KeyStore.mk.injEq, true_and]
  ext key'
  simp

theorem put_puts (hworks : Works env) (hopen : s.binlogOpen = true) (hs : Sound env.checksum s) :
    Ends (fun _ t => Sound env.checksum t ∧ t.values = putValue s.values key value) Any
      (Cache.put env key value s) := by
  rw [Cache.put, putValue]
  by_cases hempty : value.bytes = []
  · rw [if_pos hempty, if_pos hempty]
    exact (remove_drops hworks.removed hs).imp fun _ _ ht => ⟨ht.1, ht.2.1⟩
  rw [if_neg hempty, if_neg hempty]
  simp only [forget, ends_bind, ends_modify]
  have hvalues := forget_values s key
  obtain ⟨s₁, hs₁⟩ : ∃ s₁ : DatabaseObject, s₁ = { s with
      removing := s.removing.erase key, stale := s.stale.filter (· ≠ key) } := ⟨_, rfl⟩
  have hsound₁ : Sound env.checksum s₁ := by
    rw [hs₁]
    exact hs.blurred (fun _ => rfl) rfl
  rw [← hs₁] at hvalues ⊢
  have hopen₁ : s₁.binlogOpen = true := by rw [hs₁, hopen]
  have hkeep : ∀ t : DatabaseObject,
      t.values.value = Function.update s₁.values.value key (some value) → t.stale = s₁.stale →
      t.values = s.values.keep key value := by
    intro t hvalue hstale
    rw [hvalues] at hvalue
    have hqueue : t.values.queue = s.values.queue \ {key} := by
      have hqueue₁ := congrArg KeyStore.queue hvalues
      rw [values_queue, hstale]
      exact hqueue₁
    rw [KeyStore.keep, ← hvalue, ← hqueue]
  refine (writeKeyPlace_stored hworks hopen₁ hsound₁).imp fun place t ht => ?_
  cases place with
  | none =>
    obtain ⟨hkept, hhas⟩ := ht
    simp only [ends_bind]
    refine recordEntryAccess_touched.imp fun _ u hu => ?_
    have htouched := hkept.touched.trans hu
    refine ⟨htouched.sound hsound₁, hkeep u ?_ htouched.stale⟩
    rw [htouched.values, ← hhas, Function.update_eq_self]
  | some place =>
    obtain ⟨hfiles, hstale, entry, hmap, hentry, hhead, hplace⟩ := ht
    simp only [ends_bind, ends_ask, hworks.opened]
    refine (writeValueData_files hworks.written place value.bytes).imp fun good u hu => ?_
    obtain ⟨rfl, hindex, hustale, hufiles, hvalue⟩ := hu
    rw [if_pos rfl, ends_pure]
    have humap : u.map = s₁.map.insert key entry := by
      rw [← hmap]
      exact congrArg Index.map hindex
    rw [← hentry] at hvalue
    have hcontent : entry.content u.files = value := content_of_sameHead hhead hvalue
    obtain ⟨hsound, hvalue'⟩ := hsound₁.insert humap
      (fun other hother => by rw [hufiles other (hentry ▸ hother), hfiles])
      (fun key' entry' hkey' heq => hplace key' entry' hkey' (heq.trans hentry))
      (by rw [hcontent]; exact ⟨hempty, hhead.2.1.symm, hhead.2.2.symm⟩)
    rw [hcontent] at hvalue'
    exact ⟨hsound, hkeep u hvalue' (hustale.trans hstale)⟩

/-- A value that is there is answered. -/
theorem get_gets (hworks : Works env) (hs : Sound env.checksum s) :
    Ends (fun found t => found = (s.values.value key).getD {} ∧ Touched s t) Any
      (Cache.get env key s) := by
  simp only [Cache.get, ends_bind, ends_get]
  have hvalue : s.values.value key = s.map[key]?.map (Entry.content s.files) := rfl
  rw [hvalue]
  cases hk : s.map[key]? with
  | none => exact ⟨rfl, fun _ => rfl, rfl, rfl⟩
  | some entry =>
    obtain ⟨hne, -, hchecksum⟩ := hs.whole key entry hk
    simp only [ends_bind]
    refine (readValueData_ends entry.place entry.size).imp fun bytes t ht => ?_
    rw [hworks.opened] at ht
    obtain ⟨rfl, rfl⟩ := ht
    have hgood : ¬(valueIn s.files entry.place entry.size .success = [] ∨
        env.checksum (valueIn s.files entry.place entry.size .success) ≠ entry.checksum) :=
      not_or.mpr ⟨hne, not_not.mpr hchecksum⟩
    rw [if_neg hgood, ends_bind]
    refine recordEntryAccess_touched.imp fun _ u hu => ⟨rfl, ?_⟩
    exact ⟨hu.map, hu.files, hu.stale⟩

/-! ### Clearing -/

theorem forM_remove_drops (hremoved : ∀ n, env.removed n = true) (keys : List Key)
    (hs : Sound checksum s) :
    Ends (fun _ t => Sound checksum t ∧ t.values = s.values.dropAll keys ∧ t.stale = s.stale) Any
      ((keys.forM fun key => discard (remove env key)) s) := by
  induction keys generalizing s with
  | nil => exact ⟨hs, rfl, rfl⟩
  | cons key keys ih =>
    simp only [List.forM, ends_bind, ends_discard]
    refine (remove_drops hremoved hs).imp fun _ t ht => (ih ht.1).imp fun _ u hu => ⟨hu.1, ?_, ?_⟩
    · rw [hu.2.1, ht.2.1]
      rfl
    · exact hu.2.2.trans ht.2.2

theorem clearStaleChunk_cleans (hremoved : ∀ n, env.removed n = true) (hs : Sound checksum s) :
    Ends (fun _ t => Sound checksum t ∧ KeyStore.Cleans s.values.queue s.values t.values) Any
      (clearStaleChunk env s) := by
  simp only [clearStaleChunk, ends_bind, ends_get]
  split
  · exact ⟨hs, .refl _⟩
  simp only [ends_bind, ends_modify]
  refine (forM_remove_drops hremoved _ hs).imp fun _ t ht => ?_
  obtain ⟨hsound, hvalues, hstale⟩ := ht
  obtain ⟨left, hleft⟩ : ∃ left, left =
      s.stale.length - min s.stale.length env.settings.staleRemoveChunk := ⟨_, rfl⟩
  rw [← hleft] at hvalues ⊢
  refine ⟨hsound.blurred (fun _ => rfl) rfl, ?_⟩
  have hcleans := KeyStore.cleans_dropAll s.values s.values.queue (s.stale.drop left)
    { key | key ∈ s.stale.take left } (fun key hkey => List.mem_of_mem_take hkey)
    (fun key hkey => List.mem_of_mem_drop hkey) (fun key hkey => ?_)
  · rw [← hvalues, ← hstale] at hcleans
    exact hcleans
  · exact List.mem_append.mp (by rwa [List.take_append_drop])

theorem clearAllStale_cleans (hremoved : ∀ n, env.removed n = true) (fuel : Nat)
    (hs : Sound checksum s) :
    Ends (fun _ t => Sound checksum t ∧ KeyStore.Cleans s.values.queue s.values t.values ∧
      t.stale = []) Any (clearAllStale env fuel s) := by
  induction fuel generalizing s with
  | zero => trivial
  | succ fuel ih =>
    simp only [clearAllStale, ends_bind, ends_get]
    split
    · next hnil => exact ⟨hs, .refl _, hnil⟩
    · rw [ends_bind]
      refine (clearStaleChunk_cleans hremoved hs).imp fun _ t ht => ?_
      exact (ih ht.1).imp fun _ u hu => ⟨hu.1, ht.2.trans hu.2.1, hu.2.2⟩

theorem clearStaleNow_cleans (hremoved : ∀ n, env.removed n = true) (keys : List Key)
    (hs : Sound checksum s) (hstale : s.stale = []) :
    Ends (fun _ t => Sound checksum t ∧ KeyStore.Cleans { key | key ∈ keys } s.values t.values) Any
      (clearStaleNow env keys s) := by
  cases keys with
  | nil =>
    refine ⟨hs, fun _ => .inl rfl, ?_, fun _ hkey => absurd hkey List.not_mem_nil⟩
    rw [values_queue, hstale]
  | cons front keys =>
    simp only [clearStaleNow, ends_bind, ends_modify]
    have hs₁ : Sound checksum { s with stale := s.stale ++ [front] } := hs.blurred (fun _ => rfl) rfl
    refine (forM_remove_drops hremoved (front :: keys) hs₁).imp fun _ t ht => ?_
    obtain ⟨hsound, hvalues, -⟩ := ht
    have hvalue : ∀ key, t.values.value key =
        if key ∈ front :: keys then none else s.values.value key := by
      intro key
      rw [hvalues, KeyStore.dropAll_value]
      rfl
    refine ⟨hsound.blurred (fun _ => rfl) rfl, fun key => ?_, fun _ hkey => absurd hkey List.not_mem_nil,
      fun key hkey => .inr ((hvalue key).trans (if_pos hkey))⟩
    by_cases hkey : key ∈ front :: keys
    · exact .inr ⟨hkey, (hvalue key).trans (if_pos hkey)⟩
    · exact .inl ((hvalue key).trans (if_neg hkey))

/-- The keys whose value has the tag. -/
def tagged (values : KeyStore Key TaggedValue) (tag : UInt8) : Set Key :=
  { key | ∃ value, values.value key = some value ∧ value.tag = tag }

theorem clearByTag_cleans (hremoved : ∀ n, env.removed n = true) (tag : UInt8)
    (hs : Sound checksum s) :
    Ends (fun _ t => Sound checksum t ∧
      KeyStore.Cleans (s.values.queue ∪ tagged s.values tag) s.values t.values) Any
      (clearByTag env tag s) := by
  simp only [clearByTag, mapEntries, ends_bind, ends_get, ends_ask, ends_modify]
  obtain ⟨entries, hentries⟩ : ∃ entries, entries = env.order s.asked s.map.toList := ⟨_, rfl⟩
  rw [← hentries]
  obtain ⟨s₁, hs₁⟩ : ∃ s₁ : DatabaseObject, s₁ = { s with
      asked := s.asked + 1
      stale := s.stale ++ (entries.filter fun p => p.2.tag = tag).map Prod.fst } := ⟨_, rfl⟩
  have hsound₁ : Sound checksum s₁ := by
    rw [hs₁]
    exact hs.blurred (fun _ => rfl) rfl
  have hqueue : s₁.values.queue = s.values.queue ∪ tagged s.values tag := by
    ext key
    rw [hs₁]
    simp only [values_queue, Set.mem_ofPred_eq, List.mem_append, Set.mem_union, tagged]
    refine or_congr_right ?_
    have hlisted : ∀ p : Key × Entry, p ∈ entries ↔ s.map[p.1]? = some p.2 := by
      intro p
      rw [hentries, (env.order_perm _ _).mem_iff]
      exact Std.ExtTreeMap.mem_toList_iff_getElem?_eq_some
    have hvalue : s.values.value key = s.map[key]?.map (Entry.content s.files) := rfl
    simp only [List.mem_map, List.mem_filter, hvalue, Option.map_eq_some_iff, decide_eq_true_eq]
    constructor
    · rintro ⟨p, ⟨hp, htag⟩, rfl⟩
      exact ⟨_, ⟨p.2, (hlisted p).mp hp, rfl⟩, htag⟩
    · rintro ⟨_, ⟨entry, hentry, rfl⟩, htag⟩
      exact ⟨(key, entry), ⟨(hlisted (key, entry)).mpr hentry, htag⟩, rfl⟩
  have hcleans : KeyStore.Cleans (s.values.queue ∪ tagged s.values tag) s.values s₁.values := by
    refine ⟨fun key => .inl (by rw [hs₁]; rfl), hqueue.subset, fun key hkey => .inl ?_⟩
    rwa [hqueue]
  rw [← hs₁]
  split
  · rw [ends_bind]
    exact (clearStaleChunk_cleans hremoved hsound₁).imp fun _ t ht => ⟨ht.1, hcleans.trans ht.2⟩
  · exact ⟨hsound₁, hcleans⟩

theorem prune_cleans (hremoved : ∀ n, env.removed n = true) (hs : Sound checksum s) :
    Ends (fun _ t => Sound checksum t ∧ (t.values = s.values ∨
      s.values.queue = ∅ ∧ ∃ keys, KeyStore.Cleans keys s.values t.values)) Any (prune env s) := by
  simp only [prune, ends_bind, ends_get]
  split
  · exact ⟨hs, .inl rfl⟩
  next hstale =>
  rw [not_not] at hstale
  have hqueue : s.values.queue = ∅ := by
    rw [values_queue, hstale]
    exact Set.eq_empty_of_forall_notMem fun _ hkey => List.not_mem_nil hkey
  have hclear : ∀ (keys : List Key) (t : DatabaseObject), t.map = s.map → t.files = s.files →
      t.stale = [] → Ends (fun _ u => Sound checksum u ∧ (u.values = s.values ∨
        s.values.queue = ∅ ∧ ∃ keys, KeyStore.Cleans keys s.values u.values)) Any ((do
      if keys.length ≤ env.settings.staleRemoveChunk then clearStaleNow env keys
      else
        modify fun db => { db with stale := keys }
        clearStaleChunk env : Db Unit) t) := by
    intro keys t hmap hfiles htstale
    have hblurred : ∀ key : Key, t.map[key]?.map (Entry.withUseTime 0) =
        s.map[key]?.map (Entry.withUseTime 0) := fun key => by rw [hmap]
    have hvalue := value_blurred hblurred hfiles
    have hts := hs.blurred hblurred hfiles
    split
    · refine (clearStaleNow_cleans hremoved keys hts htstale).imp fun _ u hu => ?_
      refine ⟨hu.1, .inr ⟨hqueue, { key | key ∈ keys }, fun key => ?_, hu.2.queue, hu.2.done⟩⟩
      exact hvalue ▸ hu.2.value key
    · rw [ends_bind, ends_modify]
      have hts₁ : Sound checksum { t with stale := keys } := hts.blurred (fun _ => rfl) rfl
      refine (clearStaleChunk_cleans hremoved hts₁).imp fun _ u hu => ?_
      refine ⟨hu.1, .inr ⟨hqueue, { key | key ∈ keys }, fun key => ?_, hu.2.queue, hu.2.done⟩⟩
      exact hvalue ▸ hu.2.value key
  rw [ends_bind, pruneBeforeTime_eq, ends_ok]
  simp only [mapEntries, ends_bind, ends_get, ends_ask, ends_set]
  exact hclear _ _ (collectTimeStale_map _ _ _ _) rfl hstale

end TelegramClient.Cache
