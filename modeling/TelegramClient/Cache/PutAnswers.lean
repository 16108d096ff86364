import Mathlib
import TelegramClient.Cache.Values
import TelegramClient.Cache.TimePruning

/-! What `put` and `putIfEmpty` answer, and what the database holds then. -/

namespace TelegramClient.Cache

open Program

variable {env : Environment} {s t : DatabaseObject} {key : Key} {value : TaggedValue}

/-! ### The record of a value -/

/-- The entry in the map has the tag, the size and the checksum of the value. -/
def sameHead (env : Environment) (already : Entry) (value : TaggedValue) : Prop :=
  already.tag = value.tag ∧ already.size = value.bytes.length ∧
    already.checksum = env.checksum value.bytes

instance (env : Environment) (already : Entry) (value : TaggedValue) :
    Decidable (sameHead env already value) := inferInstanceAs (Decidable (_ ∧ _))

/-- How many questions come before the write of the record is asked for: one for the time, and one
for a free place or for the file of the entry that looks the same. -/
def askedBefore (env : Environment) (s : DatabaseObject) (key : Key) (value : TaggedValue) : Nat :=
  (if env.settings.trackEstimatedTime then 1 else 0) +
    match s.map[key]? with
    | none => 1
    | some already => if sameHead env already value then 1 else 0

/-- The value is there already, in the map and in its file. -/
def HoldsAlready (env : Environment) (s : DatabaseObject) (key : Key) (value : TaggedValue) : Prop :=
  ∃ already, s.map[key]? = some already ∧ sameHead env already value ∧
    valueIn s.files already.place value.bytes.length (env.opened (s.asked +
      if env.settings.trackEstimatedTime then 1 else 0)) = value.bytes

/-- The binlog takes the record of the value. -/
def RecordTaken (env : Environment) (s : DatabaseObject) (key : Key) (value : TaggedValue) : Prop :=
  s.binlogOpen = true ∧ env.written (s.asked + askedBefore env s key value) = none

/-- The entry is in the map by a record that has been written to the binlog. -/
def Recorded (env : Environment) (s t : DatabaseObject) (key : Key) (value : TaggedValue)
    (place : PlaceId) : Prop :=
  ∃ (record : Store) (useTime : UInt64), record.key = key ∧
    sameHead env (record.toEntry useTime) value ∧ record.place = place ∧
    s.binlog.write (encodeStore env.settings.trackEstimatedTime record) = .ok t.binlog ∧
    t.map = s.map.insert key (record.toEntry useTime)

theorem processRecordStore_map {settings : Settings} {idx idx' : Index} {record : Store}
    (h : processRecordStore settings idx record = .ok (idx', true)) :
    ∃ useTime, idx'.map = idx.map.insert record.key (record.toEntry useTime) := by
  rw [processRecordStore] at h
  split at h
  · cases h
  · by_cases htrack : settings.trackEstimatedTime = true
    · rw [if_pos htrack] at h
      obtain ⟨idx₁, hset, h⟩ := ok_of_bind h
      cases h
      exact ⟨_, (setMapEntry_map hset).trans (by rw [Index.applyTimePoint_map])⟩
    · rw [if_neg htrack] at h
      obtain ⟨idx₁, hset, h⟩ := ok_of_bind h
      cases h
      exact ⟨_, setMapEntry_map hset⟩

theorem writeStore_ends (record : Store) :
    Ends (fun good t => t.files = s.files ∧ t.stale = s.stale ∧ t.asked = s.asked + 1 ∧
      if good = true then s.binlogOpen = true ∧ env.written s.asked = none ∧
        s.binlog.write (encodeStore env.settings.trackEstimatedTime record) = .ok t.binlog ∧
        ∃ useTime, t.map = s.map.insert record.key (record.toEntry useTime)
      else t.map = s.map ∧ ¬(s.binlogOpen = true ∧ env.written s.asked = none)) Any
      (writeStore env record s) := by
  simp only [writeStore, writeBinlog, ends_bind, ends_ask, ends_get]
  by_cases hopen : s.binlogOpen = false
  · simp [hopen, closeBinlog]
  · rw [if_neg hopen]
    cases hw : env.written s.asked with
    | some n => simp [closeBinlog]
    | none =>
      simp only [ends_bind, ends_lift]
      refine ⟨fun binlog hbinlog => ?_, fun _ _ => trivial⟩
      simp only [ends_set, ends_pure, if_true, ends_bind, ends_get, ends_lift]
      refine ⟨fun p hp => ?_, fun _ _ => trivial⟩
      obtain ⟨idx, applied⟩ := p
      cases applied with
      | false => trivial
      | true =>
        refine ⟨rfl, rfl, rfl, by simpa using hopen, trivial, hbinlog, ?_⟩
        exact processRecordStore_map hp

theorem writingTime_ends : Ends (fun _ t => t = { s with
    asked := s.asked + if env.settings.trackEstimatedTime then 1 else 0 }) Any
    (writingTime env s) := by
  rw [writingTime]
  by_cases htrack : env.settings.trackEstimatedTime = false
  · rw [if_pos htrack]
    simp [htrack]
  · rw [if_neg htrack, ends_bind]
    refine countTimePoint_kept.imp fun time t ht => ?_
    subst ht
    rw [Bool.not_eq_false] at htrack
    simp only [ends_bind, ends_get, htrack, if_true]
    split
    · trivial
    split <;> rfl

theorem holdsValue_ends (already : Entry) :
    Ends (fun good t => t = { s with asked := s.asked + if sameHead env already value then 1 else 0 } ∧
      (good = true ↔ sameHead env already value ∧
        valueIn s.files already.place value.bytes.length (env.opened s.asked) = value.bytes)) Any
      (holdsValue env already value (env.checksum value.bytes) s) := by
  rw [holdsValue]
  by_cases hhead : sameHead env already value
  · rw [if_pos hhead, if_pos (show _ ∧ _ ∧ _ from hhead), ends_bind]
    refine (readValueData_ends already.place value.bytes.length).imp fun bytes t ht => ?_
    obtain ⟨rfl, rfl⟩ := ht
    simp [hhead]
  · rw [if_neg hhead, if_neg (show ¬(_ ∧ _ ∧ _) from hhead)]
    simp [hhead]

theorem freePlace_ends : Ends (fun _ t => t = { s with asked := s.asked + 1 }) Any
    (freePlace env s) := by
  simp only [freePlace, ends_bind, ends_ask, ends_get]
  split
  · trivial
  · rfl

/-- What is known of the place when the record has been given to the binlog. -/
def PlaceWritten (env : Environment) (s : DatabaseObject) (key : Key) (value : TaggedValue) :
    Option PlaceId → DatabaseObject → Prop
  | none, t => Kept s t ∧ (HoldsAlready env s key value ∨ ¬RecordTaken env s key value)
  | some place, t => ¬HoldsAlready env s key value ∧ RecordTaken env s key value ∧
      Recorded env s t key value place ∧ t.asked = s.asked + askedBefore env s key value + 1

theorem writeStore_placeWritten {s₁ : DatabaseObject} {record : Store} (hkept : Kept s s₁)
    (hbinlog : s₁.binlog = s.binlog) (hopen : s₁.binlogOpen = s.binlogOpen)
    (hasked : s₁.asked = s.asked + askedBefore env s key value) (hkey : record.key = key)
    (hhead : ∀ useTime, sameHead env (record.toEntry useTime) value)
    (hnew : ¬HoldsAlready env s key value) :
    Ends (fun good t => PlaceWritten env s key value (if good = true then some record.place else none) t)
      Any (writeStore env record s₁) := by
  refine (writeStore_ends record).imp fun good t ht => ?_
  obtain ⟨hfiles, hstale, hasked', hgood⟩ := ht
  rw [hasked] at hasked'
  cases good with
  | true =>
    obtain ⟨hbo, hw, hwrite, useTime, hmap⟩ := hgood
    rw [hasked] at hw
    rw [hkept.map] at hmap
    rw [hbinlog] at hwrite
    refine ⟨hnew, ⟨hopen ▸ hbo, hw⟩, ⟨record, useTime, hkey, hhead useTime, rfl, hwrite, ?_⟩, hasked'⟩
    rw [hmap, hkey]
  | false =>
    rw [if_neg (by decide), hopen, hasked] at hgood
    exact ⟨hkept.trans ⟨hgood.1, hfiles, hstale⟩, .inr hgood.2⟩

theorem writeKeyPlace_ends :
    Ends (PlaceWritten env s key value) Any
      (writeKeyPlace env key value (env.checksum value.bytes) s) := by
  simp only [writeKeyPlace, ends_bind]
  refine writingTime_ends.imp fun time t ht => ?_
  subst ht
  split
  · trivial
  · next hsize =>
    have hlt := env.settings.maxDataSize_lt
    have hhead : ∀ (place : PlaceId) (useTime : UInt64), sameHead env (Store.toEntry
        { tag := value.tag, size := .ofNat 24 value.bytes.length, place
          checksum := env.checksum value.bytes, key, time } useTime) value := by
      intro place useTime
      refine ⟨rfl, ?_, rfl⟩
      simp only [Store.toEntry, Store.getSize, BitVec.toNat_ofNat]
      exact Nat.mod_eq_of_lt (by simp only [kDataSizeLimit] at hlt; omega)
    simp only [ends_bind, ends_get]
    cases hk : s.map[key]? with
    | none =>
      simp only [ends_bind]
      refine freePlace_ends.imp fun place t ht => ?_
      subst ht
      refine writeStore_placeWritten ⟨rfl, rfl, rfl⟩ rfl rfl ?_ rfl (hhead place) ?_
      · simp [askedBefore, hk, Nat.add_assoc]
      · rintro ⟨already, halready, -⟩
        rw [hk] at halready
        cases halready
    | some already =>
      simp only [ends_bind]
      refine (holdsValue_ends already).imp fun good t ht => ?_
      obtain ⟨rfl, hgood⟩ := ht
      have hholds : HoldsAlready env s key value ↔ good = true := by
        rw [hgood]
        constructor
        · rintro ⟨already', halready, h⟩
          rw [hk] at halready
          cases halready
          exact h
        · exact fun h => ⟨already, hk, h⟩
      split
      · next htrue => exact ⟨⟨rfl, rfl, rfl⟩, .inl (hholds.mpr htrue)⟩
      · next hfalse =>
        rw [ends_bind]
        refine writeStore_placeWritten ⟨rfl, rfl, rfl⟩ rfl rfl ?_ rfl (hhead already.place)
          fun h => hfalse (hholds.mp h)
        simp [askedBefore, hk, Nat.add_assoc]

/-! ### Answers -/

/-- A following `get` that opens the file returns the value. -/
def Returns (env : Environment) (t : DatabaseObject) (key : Key) (value : TaggedValue) : Prop :=
  env.opened t.asked = .success → Ends (fun found _ => found = value) Any (Cache.get env key t)

/-- An entry for the value is in the map. It is there by a record that is in the binlog now, or it
was there before; an empty value has no entry. -/
structure Stored (env : Environment) (s t : DatabaseObject) (key : Key) (value : TaggedValue) :
    Prop where
  entry : value.bytes ≠ [] → ∃ entry, t.map[key]? = some entry ∧ sameHead env entry value ∧
    ((∃ place, Recorded env s t key value place ∧ entry.place = place) ∨
      ∃ already, s.map[key]? = some already ∧ already.withUseTime 0 = entry.withUseTime 0)
  removed : value.bytes = [] → t.map[key]? = none
  returns : value.bytes ≠ [] → Returns env t key value

/-- The write of the record or of the data file is refused. -/
def WriteFails (env : Environment) (s : DatabaseObject) (key : Key) (value : TaggedValue) : Prop :=
  value.bytes ≠ [] ∧ ¬HoldsAlready env s key value ∧
    (¬RecordTaken env s key value ∨
      let asked := s.asked + askedBefore env s key value + 1
      ¬(env.opened asked = .success ∧ env.written (asked + 2) = none))

/-- The key has no entry, or that of before with the same files. -/
def AnswersAsBefore (s t : DatabaseObject) (key : Key) : Prop :=
  t.map[key]? = none ∨ t.files = s.files ∧
    t.map[key]?.map (Entry.withUseTime 0) = s.map[key]?.map (Entry.withUseTime 0)

structure TellsTruth (env : Environment) (s : DatabaseObject) (key : Key) (value : TaggedValue)
    (result : Error) (t : DatabaseObject) : Prop where
  stored : result = .noError → Stored env s t key value
  failed : WriteFails env s key value → result ≠ .noError ∧ AnswersAsBefore s t key

theorem get_returns {entry : Entry} (hkey : t.map[key]? = some entry) (hne : value.bytes ≠ [])
    (hhead : sameHead env entry value)
    (hvalue : valueIn t.files entry.place value.bytes.length .success = value.bytes) :
    Returns env t key value := by
  intro hopened
  obtain ⟨htag, hsize, hchecksum⟩ := hhead
  simp only [Cache.get, ends_bind, ends_get, hkey]
  refine (readValueData_ends entry.place entry.size).imp fun bytes u hu => ?_
  rw [hopened, hsize, hvalue] at hu
  obtain ⟨rfl, rfl⟩ := hu
  rw [if_neg (by simp [hne, hchecksum]), ends_bind]
  refine recordEntryAccess_touched.imp fun _ u _ => ?_
  rw [ends_pure, htag]

theorem opened_of_valueIn {files : PlaceId → Option (List UInt8)} {place : PlaceId} {size : Nat}
    {result : OpenResult} (h : valueIn files place size result ≠ []) : result = .success := by
  cases result with
  | success => rfl
  | _ => simp [valueIn] at h

theorem Removed.getElem? (h : Removed key s t) : t.map[key]? = none := by
  rw [h.map, Std.ExtTreeMap.getElem?_erase_self]

/-- An error is reported when the entry has been taken out again. -/
theorem TellsTruth.of_removed {u : DatabaseObject} {result : Error} (hresult : result ≠ .noError)
    (h : Removed key u t) : TellsTruth env s key value result t :=
  ⟨fun hno => absurd hno hresult, fun _ => ⟨hresult, .inl h.getElem?⟩⟩

theorem tellsTruth_of_empty {result : Error} (hempty : value.bytes = []) (h : Removed key s t) :
    TellsTruth env s key value result t :=
  ⟨fun _ => ⟨fun hne => absurd hempty hne, fun _ => h.getElem?, fun hne => absurd hempty hne⟩,
    fun hfails => absurd hempty hfails.1⟩

/-- Nothing has changed but use times. -/
theorem tellsTruth_of_holdsAlready (hne : value.bytes ≠ []) (hholds : HoldsAlready env s key value)
    (hmap : t.map[key]?.map (Entry.withUseTime 0) = s.map[key]?.map (Entry.withUseTime 0))
    (hfiles : t.files = s.files) : TellsTruth env s key value .noError t := by
  refine ⟨fun _ => ?_, fun hfails => absurd hholds hfails.2.1⟩
  obtain ⟨already, hkey, hhead, hvalue⟩ := hholds
  rw [hkey, Option.map_some] at hmap
  obtain ⟨entry, hentry, hsame⟩ := Option.map_eq_some_iff.mp hmap
  obtain ⟨hsize, hchecksum, hplace, htag⟩ : entry.size = already.size ∧
      entry.checksum = already.checksum ∧ entry.place = already.place ∧ entry.tag = already.tag := by
    simpa [Entry.withUseTime] using hsame
  have hhead' : sameHead env entry value :=
    ⟨htag.trans hhead.1, hsize.trans hhead.2.1, hchecksum.trans hhead.2.2⟩
  rw [opened_of_valueIn (hvalue.trans_ne hne)] at hvalue
  refine ⟨fun _ => ⟨entry, hentry, hhead', .inr ⟨already, hkey, hsame.symm⟩⟩,
    fun hempty => absurd hempty hne, fun _ => get_returns hentry hne hhead' ?_⟩
  rw [hfiles, hplace]
  exact hvalue

theorem tellsTruth_of_recorded {u : DatabaseObject} {place : PlaceId} (hne : value.bytes ≠ [])
    (hrecorded : Recorded env s u key value place) (hindex : t.toIndex = u.toIndex)
    (hbinlog : t.binlog = u.binlog) (hgood : ¬WriteFails env s key value)
    (hvalue : valueIn t.files place value.bytes.length .success = value.bytes) :
    TellsTruth env s key value .noError t := by
  obtain ⟨record, useTime, hkey, hhead, hplace, hwrite, hmap⟩ := hrecorded
  rw [← hindex] at hmap
  rw [← hbinlog] at hwrite
  have hentry : t.map[key]? = some (record.toEntry useTime) := by
    rw [hmap, Std.ExtTreeMap.getElem?_insert_self]
  refine ⟨fun _ => ⟨fun _ => ⟨_, hentry, hhead, .inl ⟨place, ⟨record, useTime, hkey, hhead, hplace,
    hwrite, hmap⟩, hplace⟩⟩, fun hempty => absurd hempty hne, fun _ => get_returns hentry hne hhead ?_⟩,
    fun hfails => absurd hfails hgood⟩
  rw [show (record.toEntry useTime).place = place from hplace]
  exact hvalue

/-- The binlog does not take the record. -/
def RecordRefused (env : Environment) (s : DatabaseObject) (key : Key) (value : TaggedValue) : Prop :=
  value.bytes ≠ [] ∧ ¬HoldsAlready env s key value ∧ ¬RecordTaken env s key value

theorem put_ends : Ends (fun result t =>
    (¬RecordRefused env s key value → TellsTruth env s key value result t) ∧
      (RecordRefused env s key value → result = .noError)) Any (put env key value s) := by
  rw [put]
  by_cases hempty : value.bytes = []
  · rw [if_pos hempty]
    refine remove_removed.imp fun result t ht => ?_
    exact ⟨fun _ => tellsTruth_of_empty hempty ht, fun h => absurd hempty h.1⟩
  · rw [if_neg hempty]
    simp only [forget, ends_bind, ends_modify]
    refine writeKeyPlace_ends.imp fun place t ht => ?_
    cases place with
    | none =>
      simp only [ends_bind]
      refine recordEntryAccess_touched.imp fun _ u hu => ?_
      rw [ends_pure]
      refine ⟨fun hnot => ?_, fun _ => rfl⟩
      by_cases hholds : HoldsAlready env s key value
      · have htouched := ht.1.touched.trans hu
        exact tellsTruth_of_holdsAlready hempty hholds (htouched.map key) htouched.files
      · exact absurd ⟨hempty, hholds, ht.2.resolve_left hholds⟩ hnot
    | some place =>
      obtain ⟨hnew, htaken, hrecorded, hasked⟩ := ht
      have hrefused : ¬RecordRefused env s key value := fun h => h.2.2 htaken
      have herror : ∀ (u : DatabaseObject) (result : Error), result ≠ .noError →
          Ends (fun _ t => (¬RecordRefused env s key value → TellsTruth env s key value result t) ∧
            (RecordRefused env s key value → result = .noError)) Any (remove env key u) :=
        fun u result hresult => remove_removed.imp fun _ t ht =>
          ⟨fun _ => .of_removed hresult ht, fun h => absurd h hrefused⟩
      simp only [ends_bind, ends_ask]
      cases hopened : env.opened t.asked with
      | failed =>
        simp only [ends_bind, ends_discard, ends_pure]
        exact herror _ _ (by simp)
      | lockFailed =>
        simp only [ends_bind, ends_discard, ends_pure]
        exact herror _ _ (by simp)
      | wrongKey => trivial
      | success =>
        simp only [ends_bind]
        refine (writeValueData_ends place value.bytes).imp fun good u hu => ?_
        obtain ⟨hindex, -, hbinlog, hgood, hvalue⟩ := hu
        split
        · next htrue =>
          rw [ends_pure]
          refine ⟨fun _ => tellsTruth_of_recorded hempty hrecorded hindex hbinlog ?_ (hvalue htrue),
            fun _ => rfl⟩
          rintro ⟨-, -, hnot | hdata⟩
          · exact hnot htaken
          · change ¬(env.opened (s.asked + askedBefore env s key value + 1) = .success ∧
              env.written (s.asked + askedBefore env s key value + 1 + 2) = none) at hdata
            change t.asked = s.asked + askedBefore env s key value + 1 at hasked
            rw [← hasked] at hdata
            exact hdata ⟨hopened, hgood.mp htrue⟩
        · simp only [ends_bind, ends_discard, ends_pure]
          exact herror _ _ (by simp)

theorem put_tellsTruth_of_ok {result : Error} (h : put env key value s = .ok (result, t)) :
    TellsTruth env s key value result t ↔ ¬RecordRefused env s key value := by
  have hends := @put_ends env s key value
  rw [h, ends_ok] at hends
  refine ⟨fun htruth hrefused => ?_, hends.1⟩
  exact (htruth.failed ⟨hrefused.1, hrefused.2.1, .inl hrefused.2.2⟩).1 (hends.2 hrefused)

/-- The disk is full once the database is open. -/
def full (n : Nat) : Option Nat := if n < 4 then none else some 0

def filledUp : Environment := { calm (fun _ => 100) with written := full }

def opened (env : Environment) : DatabaseObject := stateAfter env [.open [] fun _ => none]

def answer (result : Run (Error × DatabaseObject)) : Error × DatabaseObject :=
  match result with
  | .ok p => p
  | .error _ => (.io .binlog, {})

theorem ok_answer {result : Run (Error × DatabaseObject)} {error : Error}
    (h : result.isOk = true ∧ (answer result).1 = error) : result = .ok (error, (answer result).2) := by
  cases result with
  | error stop => simp [Except.isOk, Except.toBool] at h
  | ok p => rw [← h.2, answer]

end TelegramClient.Cache
