import Mathlib
import TelegramClient.Cache.MinimalTime
import TelegramClient.Cache.Programs

/-! Every call of the owner of the database changes its entries by the changes whose effect on the
minimal time is known. -/

namespace TelegramClient.Cache

open Program

variable {env : Environment} {s t u : DatabaseObject} {α : Type} {m : Db α} {key : Key}

theorem SameEntries.times {idx idx' : Index} (h : SameEntries idx idx') : SameTimes idx idx' :=
  ⟨h.map, h.minimalEntryTime, h.count⟩

theorem minimalTime_rules (settings : Settings) :
    IndexRules settings (fun _ => True) (IndexStep settings) Any where
  stop _ _ := trivial
  same _ _ hsame _ := ⟨trivial, .rest, hsame.times⟩
  store idx key entry _ _ := by
    cases hset : idx.setMapEntry settings.trackEstimatedTime key entry with
    | error stop => exact trivial
    | ok idx' => exact ⟨trivial, .store key entry, hset⟩
  erase idx key _ := by
    cases herase : idx.eraseMapEntry key with
    | error stop => exact trivial
    | ok idx' => exact ⟨trivial, .erase key, herase⟩
  access idx key useTime _ := ⟨trivial, .access key useTime, rfl⟩
  clear idx := ⟨trivial, .clear, rfl⟩

theorem Rests.times (hm : Rests m) (s : DatabaseObject) :
    Ends (fun _ t => SameTimes s.toIndex t.toIndex) Any (m s) :=
  (hm.ends s).mono (fun _ _ h => h.times) fun _ _ => trivial

/-! ### Pruning -/

/-- A removal, with what is done around it. -/
theorem remove_erases (key : Key) (s : DatabaseObject) :
    Ends (fun _ t => ∃ idx₁ idx₂, SameTimes s.toIndex idx₁ ∧ idx₁.eraseMapEntry key = .ok idx₂ ∧
      SameTimes idx₂ t.toIndex) Any (remove env key s) := by
  simp only [remove, ends_bind, ends_get]
  cases hk : s.map[key]? with
  | none =>
    refine ⟨s.toIndex, s.toIndex, .refl _, ?_, .refl _⟩
    rw [Index.eraseMapEntry, hk]
  | some entry =>
    simp only [ends_bind, ends_modify]
    refine (writeMultiRemoveLazy_rests.times _).imp fun _ t ht => ?_
    rw [ends_get, ends_lift]
    refine ⟨fun idx hidx => ?_, fun _ _ => trivial⟩
    rw [ends_set]
    exact ((removeFile_onlyAsks entry.place).rests.times _).imp fun _ u hu =>
      ⟨t.toIndex, idx, ht, hidx, hu⟩

theorem erases_of_same (h : SameTimes s.toIndex t.toIndex) {keys : List Key}
    (herases : Erases keys t.toIndex u.toIndex) : Erases keys s.toIndex u.toIndex := by
  cases keys with
  | nil => exact h.trans herases
  | cons key keys =>
    obtain ⟨idx₁, idx₂, hbefore, hrest⟩ := herases
    exact ⟨idx₁, idx₂, h.trans hbefore, hrest⟩

theorem same_of_erases {keys : List Key} {idx : Index} (herases : Erases keys idx t.toIndex)
    (h : SameTimes t.toIndex u.toIndex) : Erases keys idx u.toIndex := by
  induction keys generalizing idx with
  | nil => exact SameTimes.trans herases h
  | cons key keys ih =>
    obtain ⟨idx₁, idx₂, hbefore, herase, hrest⟩ := herases
    exact ⟨idx₁, idx₂, hbefore, herase, ih hrest⟩

theorem forM_remove_erases (keys : List Key) (s : DatabaseObject) :
    Ends (fun _ t => Erases keys s.toIndex t.toIndex) Any
      ((keys.forM fun key => discard (remove env key)) s) := by
  induction keys generalizing s with
  | nil => exact SameTimes.refl s.toIndex
  | cons key keys ih =>
    simp only [List.forM, ends_bind, ends_discard]
    refine (remove_erases key s).imp fun _ t ht => (ih t).imp fun _ u hu => ?_
    obtain ⟨idx₁, idx₂, hbefore, herase, hafter⟩ := ht
    refine ⟨idx₁, idx₂, hbefore, herase, ?_⟩
    exact erases_of_same (s := { s with toIndex := idx₂ }) hafter hu

theorem clearStaleNow_erases (keys : List Key) (s : DatabaseObject) :
    Ends (fun _ t => Erases keys s.toIndex t.toIndex) Any (clearStaleNow env keys s) := by
  cases keys with
  | nil => exact SameTimes.refl s.toIndex
  | cons front keys =>
    simp only [clearStaleNow, ends_bind, ends_modify]
    refine (forM_remove_erases (front :: keys) _).imp fun _ t ht => ?_
    exact same_of_erases (t := t) ht ⟨rfl, rfl, rfl⟩

theorem clearStaleChunk_erases (s : DatabaseObject) :
    Ends (fun _ t => ∃ keys, Erases keys s.toIndex t.toIndex) Any (clearStaleChunk env s) := by
  simp only [clearStaleChunk, ends_bind, ends_get]
  split
  · exact ⟨[], SameTimes.refl s.toIndex⟩
  · simp only [ends_bind, ends_modify]
    refine (forM_remove_erases _ _).imp fun _ t ht => ?_
    exact ⟨_, same_of_erases (t := t) ht ⟨rfl, rfl, rfl⟩⟩

theorem prune_steps : Keeps (fun _ => True) (IndexStep env.settings) Any (prune env) := by
  refine Follows.get.bind fun db => ?_
  split
  · exact .pure _
  refine Follows.bind (pruneBeforeTime_onlyAsks.keeps (minimalTime_rules _)) fun before => ?_
  intro s _
  simp only [mapEntries, ends_bind, ends_get, ends_ask, ends_set]
  have hprune : ∀ (keys : List Key) (t u : DatabaseObject),
      SameTimes (collectTimeStale env.settings before s.toIndex
        (env.order s.asked s.map.toList)).index t.toIndex →
      Erases keys t.toIndex u.toIndex → Relation.ReflTransGen
        (fun s t : DatabaseObject => IndexStep env.settings s.toIndex t.toIndex) s u := by
    intro keys t u hsame herases
    refine .single ⟨.prune before keys, env.order s.asked s.map.toList, env.order_perm _ _, ?_⟩
    exact erases_of_same (s := { s with toIndex := (collectTimeStale env.settings before s.toIndex
      (env.order s.asked s.map.toList)).index }) hsame herases
  split
  · refine (clearStaleNow_erases _ _).imp fun _ u hu => ⟨trivial, hprune _ _ u ?_ hu⟩
    exact ⟨rfl, rfl, rfl⟩
  · rw [ends_bind, ends_modify]
    refine (clearStaleChunk_erases _).imp fun _ u hu => ?_
    obtain ⟨keys, herases⟩ := hu
    exact ⟨trivial, hprune keys _ u ⟨rfl, rfl, rfl⟩ herases⟩

/-! ### Runs -/

def SafeStep (settings : Settings) (idx idx' : Index) : Prop :=
  ∃ change : Change, change.Makes settings idx idx' ∧ change.Safe settings idx

theorem after_steps {calls : List Call} (h : After env calls s) :
    Relation.ReflTransGen (IndexStep env.settings) {} s.toIndex := by
  have hsteps := calls_keeps (minimalTime_rules env.settings) prune_steps trivial calls
  rw [After] at h
  rw [h] at hsteps
  exact hsteps.2

theorem minimalTime_of_safe {settings : Settings} {idx : Index}
    (h : Relation.ReflTransGen (SafeStep settings) {} idx) : MinimalTime idx :=
  keeps_of_steps (fun _ _ hstep hidx => by
    obtain ⟨change, hmakes, hsafe⟩ := hstep
    exact change_minimalTime hidx hmakes hsafe) h (minimalTime_of_zero rfl)

/-- The minimal time is right in every run whose stores and accesses are safe and whose pruning
removes at once what is too old, and a store or an access that is not leaves it wrong. -/
theorem minimalTime_runs (env : Environment) :
    (∀ calls s, After env calls s →
      Relation.ReflTransGen (IndexStep env.settings) {} s.toIndex) ∧
    (∀ idx, Relation.ReflTransGen (SafeStep env.settings) {} idx → MinimalTime idx) ∧
    (∀ idx idx' key entry, MinimalTime idx →
      (Change.store key entry).Makes env.settings idx idx' →
        (MinimalTime idx' ↔ (Change.store key entry).Safe env.settings idx)) ∧
    (∀ idx idx' key useTime, MinimalTime idx →
      (Change.access key useTime).Makes env.settings idx idx' →
        (MinimalTime idx' ↔ (Change.access key useTime).Safe env.settings idx)) := by
  refine ⟨fun _ _ hs => after_steps hs, fun _ h => minimalTime_of_safe h, ?_, ?_⟩
  · exact fun _ _ _ _ h hmakes => setMapEntry_minimalTime_iff h hmakes
  · rintro idx idx' key useTime h rfl
    exact setUseTime_minimalTime_iff h

/-- The minimal time stays with nobody after an access, and is too great after the entry that had
it was removed and another one stored. -/
theorem minimalTime_lost : (∃ s, After (calm laterOn) (twoPuts ++ [.get ⟨0, 1⟩, .writeBundles]) s ∧
      ¬MinimalTime s.toIndex) ∧
    ∃ s, After (calm laterOn) (twoPuts ++ [.remove ⟨0, 1⟩, .put ⟨0, 3⟩ { bytes := [3] }]) s ∧
      ¬MinimalTime s.toIndex := by
  constructor
  · refine ⟨_, ok_outcome (by decide +kernel), fun h => ?_⟩
    exact absurd (h (by decide +kernel)).2 (by decide +kernel)
  · let s := stateAfter (calm laterOn)
      (twoPuts ++ [.remove ⟨0, 1⟩, .put ⟨0, 3⟩ { bytes := [3] }])
    refine ⟨s, ok_outcome (by decide +kernel), fun h => ?_⟩
    obtain ⟨entry, hentry, hlt⟩ := (Option.any_eq_true
      (fun e : Entry => decide (e.useTime < s.minimalEntryTime)) s.map[(⟨0, 2⟩ : Key)]?).mp
      (by decide +kernel)
    exact absurd ((h (by decide +kernel)).1 ⟨0, 2⟩ entry hentry)
      (UInt64.not_le.mpr (of_decide_eq_true hlt))

end TelegramClient.Cache
