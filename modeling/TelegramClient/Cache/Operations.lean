import Mathlib
import TelegramClient.Cache.Database
import TelegramClient.Lib.Program

/-! What the parts of an operation on the database leave as it was. -/

namespace TelegramClient.Cache

open Program

variable {env : Environment} {s t u : DatabaseObject} {key : Key}

@[simp] theorem ends_ask {α : Type} {answer : Nat → α} {Q : α → DatabaseObject → Prop}
    {E : Stop → Prop} :
    Ends Q E ((ask answer) s) ↔ Q (answer s.asked) { s with asked := s.asked + 1 } := .rfl

/-- Nothing that a reader of values can see has changed. -/
structure Kept (s t : DatabaseObject) : Prop where
  map : t.map = s.map
  files : t.files = s.files
  stale : t.stale = s.stale

theorem Kept.refl (s : DatabaseObject) : Kept s s := ⟨rfl, rfl, rfl⟩

theorem Kept.trans (h : Kept s t) (h' : Kept t u) : Kept s u :=
  ⟨h'.map.trans h.map, h'.files.trans h.files, h'.stale.trans h.stale⟩

/-- The same, but entries may have been given another use time. -/
structure Touched (s t : DatabaseObject) : Prop where
  map : ∀ key : Key, t.map[key]?.map (Entry.withUseTime 0) = s.map[key]?.map (Entry.withUseTime 0)
  files : t.files = s.files
  stale : t.stale = s.stale

theorem Kept.touched (h : Kept s t) : Touched s t := ⟨fun _ => by rw [h.map], h.files, h.stale⟩

theorem Touched.trans (h : Touched s t) (h' : Touched t u) : Touched s u :=
  ⟨fun key => (h'.map key).trans (h.map key), h'.files.trans h.files, h'.stale.trans h.stale⟩

abbrev Any (_ : Stop) : Prop := True

theorem writeBinlog_kept (bytes : List UInt8) :
    Ends (fun _ t => Kept s t) Any (writeBinlog env bytes s) := by
  simp only [writeBinlog, ends_bind, ends_ask, ends_get]
  split
  · exact ⟨rfl, rfl, rfl⟩
  · cases env.written s.asked with
    | none =>
      simp only [ends_bind, ends_lift]
      exact ⟨fun _ _ => ⟨rfl, rfl, rfl⟩, fun _ _ => trivial⟩
    | some n => exact ⟨rfl, rfl, rfl⟩

theorem writeBundle_kept (header list : List UInt8) :
    Ends (fun _ t => Kept s t) Any (writeBundle env header list s) := by
  simp only [writeBundle, ends_bind]
  refine (writeBinlog_kept header).imp fun good t ht => ?_
  split
  · rw [ends_bind]
    refine (writeBinlog_kept list).imp fun good u hu => ?_
    have hkept := ht.trans hu
    split <;> exact ⟨hkept.map, hkept.files, hkept.stale⟩
  · rw [ends_bind, ends_pure]
    split <;> exact ⟨ht.map, ht.files, ht.stale⟩

theorem writeMultiRemove_kept : Ends (fun _ t => Kept s t) Any (writeMultiRemove env s) := by
  simp only [writeMultiRemove, ends_bind, ends_get]
  split
  · trivial
  split
  · exact .refl s
  · rw [ends_bind, ends_set]
    exact (writeBundle_kept _ _).imp fun _ _ h => ⟨h.map, h.files, h.stale⟩

theorem writeMultiRemoveLazy_kept : Ends (fun _ t => Kept s t) Any (writeMultiRemoveLazy env s) := by
  simp only [writeMultiRemoveLazy, ends_bind, ends_get]
  split
  · exact ends_discard.mpr writeMultiRemove_kept
  · exact .refl s

/-! ### The index -/

theorem ok_of_bind {α β : Type} {x : Run α} {f : α → Run β} {b : β} (h : x >>= f = .ok b) :
    ∃ a, x = .ok a ∧ f a = .ok b := by
  cases x with
  | error stop => cases h
  | ok a => exact ⟨a, rfl, h⟩

theorem updateStats_map {idx idx' : Index} {was now : Entry}
    (h : idx.updateStats was now = .ok idx') : idx'.map = idx.map := by
  rw [Index.updateStats] at h
  obtain ⟨totalSize, -, h⟩ := ok_of_bind h
  split at h
  all_goals
    obtain ⟨stats, -, h⟩ := ok_of_bind h
    cases h
    rfl

theorem dropMinimal_map {idx idx' : Index} (h : idx.dropMinimal = .ok idx') :
    idx'.map = idx.map := by
  rw [Index.dropMinimal] at h
  split at h
  · cases h
  · obtain ⟨count, -, h⟩ := ok_of_bind h
    cases h
    rfl

theorem followMinimal_map {idx idx' : Index} {already entry : Entry}
    (h : idx.followMinimal already entry = .ok idx') : idx'.map = idx.map := by
  rw [Index.followMinimal] at h
  split at h
  · cases h
    rfl
  split at h
  · split at h
    · split at h
      · cases h
      · cases h
        rfl
    split at h
    · exact dropMinimal_map h
    · cases h
      rfl
  · cases h
    rfl

theorem setMapEntry_map {idx idx' : Index} {tracked : Bool} {entry : Entry}
    (h : idx.setMapEntry tracked key entry = .ok idx') : idx'.map = idx.map.insert key entry := by
  rw [Index.setMapEntry] at h
  obtain ⟨idx₁, hstats, h⟩ := ok_of_bind h
  obtain ⟨idx₂, hfollow, h⟩ := ok_of_bind h
  cases h
  rw [followMinimal_map hfollow, ← updateStats_map hstats]

theorem eraseMapEntry_map {idx idx' : Index} (h : idx.eraseMapEntry key = .ok idx') :
    idx'.map = idx.map.erase key := by
  rw [Index.eraseMapEntry] at h
  cases hk : idx.map[key]? with
  | none =>
    rw [hk] at h
    cases h
    rw [Std.ExtTreeMap.erase_of_getElem?_eq_none hk]
  | some entry =>
    simp only [hk] at h
    obtain ⟨idx₁, hstats, h⟩ := ok_of_bind h
    have hmap := updateStats_map hstats
    split at h
    · obtain ⟨idx₂, hdrop, h⟩ := ok_of_bind h
      cases h
      rw [dropMinimal_map hdrop, hmap]
    · cases h
      rw [hmap]

theorem foldl_setUseTime_map (keys : List Key) (idx : Index) (useTime : UInt64) (key : Key) :
    (keys.foldl (·.setUseTime · useTime) idx).map[key]?.map (Entry.withUseTime 0) =
      idx.map[key]?.map (Entry.withUseTime 0) := by
  induction keys generalizing idx with
  | nil => rfl
  | cons k keys ih =>
    rw [List.foldl_cons, ih, Index.setUseTime, Std.ExtTreeMap.getElem?_modify]
    split
    · next hk =>
      rw [Std.LawfulEqCmp.eq_of_compare hk, Option.map_map]
      rfl
    · rfl

/-! ### Accesses and removals -/

theorem countTimePoint_kept :
    Ends (fun _ t => t = { s with asked := s.asked + 1 }) Any (countTimePoint env s) := by
  simp only [countTimePoint, getUnixtime, ends_bind, ends_ask, ends_pure, ends_get]

theorem writeMultiAccessBlock_touched :
    Ends (fun _ t => Touched s t) Any (writeMultiAccessBlock env s) := by
  rw [writeMultiAccessBlock]
  split
  · trivial
  simp only [ends_bind, ends_get]
  split
  · trivial
  rw [ends_bind]
  refine countTimePoint_kept.imp fun time t ht => ?_
  subst ht
  simp only [ends_bind, ends_get, ends_set]
  refine (writeBundle_kept _ _).imp fun _ u hu => ?_
  exact ⟨fun key => by rw [hu.map]; exact foldl_setUseTime_map _ _ _ _, hu.files, hu.stale⟩

theorem recordEntryAccess_touched :
    Ends (fun _ t => Touched s t) Any (recordEntryAccess env key s) := by
  simp only [recordEntryAccess]
  split
  · simp only [ends_bind, ends_modify, writeMultiAccessLazy, ends_get]
    split
    · simp only [ends_discard, writeMultiAccess, ends_bind, ends_get]
      split
      · exact ⟨fun _ => rfl, rfl, rfl⟩
      · exact writeMultiAccessBlock_touched.imp fun _ _ h => ⟨h.map, h.files, h.stale⟩
    · exact ⟨fun _ => rfl, rfl, rfl⟩
  · exact (Kept.refl s).touched

/-- A removal takes the entry out of the map; its file may stay. -/
structure Removed (key : Key) (s t : DatabaseObject) : Prop where
  map : t.map = s.map.erase key
  files : ∀ place, t.files place = s.files place ∨ t.files place = none
  stale : t.stale = s.stale

theorem remove_removed : Ends (fun _ t => Removed key s t) Any (remove env key s) := by
  simp only [remove, ends_bind, ends_get]
  cases hk : s.map[key]? with
  | none => exact ⟨(Std.ExtTreeMap.erase_of_getElem?_eq_none hk).symm, fun _ => .inl rfl, rfl⟩
  | some entry =>
    simp only [ends_bind, ends_modify]
    refine writeMultiRemoveLazy_kept.imp fun _ t ht => ?_
    simp only [ends_get, ends_lift, ends_set]
    refine ⟨fun idx hidx => ?_, fun _ _ => trivial⟩
    have hmap := eraseMapEntry_map hidx
    rw [ht.map] at hmap
    simp only [removeFile, ends_bind, ends_ask]
    split
    · simp only [ends_bind, ends_modify, ends_get]
      split
      all_goals
        refine ⟨hmap, fun place => ?_, ht.stale⟩
        simp only [Function.update_apply]
        split
        · exact .inr rfl
        · exact .inl (congrFun ht.files place)
    · exact ⟨hmap, fun place => .inl (congrFun ht.files place), ht.stale⟩

end TelegramClient.Cache
