import Mathlib
import TelegramClient.Cache.TimePruning

/-! The minimal time that is kept beside the entries. Storing and removing follow it, an access
writes the time of its entry and leaves it as it is. -/

namespace TelegramClient.Cache

open Std.ExtTreeMap Program

/-! ### The minimal time of the entries -/

def holds (useTime : UInt64) (entry : Entry) : Nat := if entry.useTime = useTime then 1 else 0

/-- How many entries have this use time. -/
def holders (map : Std.ExtTreeMap Key Entry) (useTime : UInt64) : Nat :=
  sumValues (holds useTime) map

/-- The minimal time is known and right, or forgotten. -/
def MinimalTime (idx : Index) : Prop :=
  idx.minimalEntryTime ≠ 0 →
    (∀ (key : Key) (entry : Entry), idx.map[key]? = some entry →
      idx.minimalEntryTime ≤ entry.useTime) ∧
    idx.entriesWithMinimalTimeCount = holders idx.map idx.minimalEntryTime

structure SameTimes (idx idx' : Index) : Prop where
  map : idx'.map = idx.map
  minimalEntryTime : idx'.minimalEntryTime = idx.minimalEntryTime
  count : idx'.entriesWithMinimalTimeCount = idx.entriesWithMinimalTimeCount

variable {idx idx' idx₁ idx₂ : Index} {key : Key} {entry was now already : Entry}
  {useTime : UInt64} {keys : List Key} {tracked : Bool} {map : Std.ExtTreeMap Key Entry}

theorem SameTimes.refl (idx : Index) : SameTimes idx idx := ⟨rfl, rfl, rfl⟩

theorem SameTimes.trans (h : SameTimes idx idx₁) (h' : SameTimes idx₁ idx₂) : SameTimes idx idx₂ :=
  ⟨h'.map.trans h.map, h'.minimalEntryTime.trans h.minimalEntryTime, h'.count.trans h.count⟩

theorem SameTimes.minimalTime_iff (h : SameTimes idx idx') :
    MinimalTime idx' ↔ MinimalTime idx := by
  rw [MinimalTime, MinimalTime, h.map, h.minimalEntryTime, h.count]

theorem minimalTime_of_zero (h : idx.minimalEntryTime = 0) : MinimalTime idx :=
  fun hne => absurd h hne

theorem holds_eq (h : entry.useTime = useTime) : holds useTime entry = 1 := if_pos h

theorem holds_ne (h : entry.useTime ≠ useTime) : holds useTime entry = 0 := if_neg h

theorem holders_eq_zero : holders map useTime = 0 ↔
    ∀ (key : Key) (entry : Entry), map[key]? = some entry → entry.useTime ≠ useTime := by
  rw [holders, sumValues, List.sum_eq_zero_iff]
  constructor
  · intro h key entry hentry heq
    have hmem := List.mem_map_of_mem (f := fun p : Key × Entry => holds useTime p.2)
      (mem_toList_iff_getElem?_eq_some.mpr hentry)
    have hone := h _ hmem
    rw [holds, if_pos heq] at hone
    cases hone
  · intro h n hn
    obtain ⟨⟨key, entry⟩, hmem, rfl⟩ := List.mem_map.mp hn
    exact if_neg (h key entry (mem_toList_iff_getElem?_eq_some.mp hmem))

theorem holders_insert (map : Std.ExtTreeMap Key Entry) (key : Key) (entry : Entry)
    (hne : useTime ≠ 0) :
    holders (map.insert key entry) useTime + holds useTime (map.getD key {}) =
      holders map useTime + holds useTime entry := by
  have hshare : share (holds useTime) map key = holds useTime (map.getD key {}) := by
    rw [share, Std.ExtTreeMap.getD_eq_getD_getElem?]
    cases map[key]? with
    | none => exact (if_neg (Ne.symm hne)).symm
    | some entry => rfl
  rw [← hshare]
  exact sumValues_insert_add (holds useTime) map key entry

/-! ### Storing -/

theorem updateStats_same (h : idx.updateStats was now = .ok idx') : SameTimes idx idx' := by
  rw [Index.updateStats] at h
  obtain ⟨totalSize, -, h⟩ := ok_of_bind h
  split at h
  all_goals
    obtain ⟨stats, -, h⟩ := ok_of_bind h
    cases h
    exact ⟨rfl, rfl, rfl⟩

theorem dropMinimal_count (h : idx.dropMinimal = .ok idx') : idx'.map = idx.map ∧
    idx.entriesWithMinimalTimeCount = idx'.entriesWithMinimalTimeCount + 1 ∧
    idx'.minimalEntryTime =
      if idx'.entriesWithMinimalTimeCount = 0 then 0 else idx.minimalEntryTime := by
  rw [Index.dropMinimal] at h
  split at h
  · cases h
  · next hcount =>
    obtain ⟨count, hsubtract, h⟩ := ok_of_bind h
    rw [subtract_eq (show idx.entriesWithMinimalTimeCount =
      (idx.entriesWithMinimalTimeCount - 1) + 1 by omega)] at hsubtract
    cases hsubtract
    cases h
    exact ⟨rfl, by dsimp only; omega, rfl⟩

/-- A time that comes to be the minimal one must be less than that of every other entry, and none
may be less than a minimal time that stays. -/
def SafeStore (key : Key) (entry : Entry) (idx : Index) : Prop :=
  (idx.minimalEntryTime = 0 → entry.useTime ≠ 0 → ∀ (other : Key) (e : Entry),
    idx.map[other]? = some e → other ≠ key → entry.useTime < e.useTime) ∧
  (idx.minimalEntryTime ≠ 0 → entry.useTime ≠ 0 ∨
    (idx.map.getD key {}).useTime = idx.minimalEntryTime ∧ idx.entriesWithMinimalTimeCount = 1)

theorem forall_insert {P : Entry → Prop} :
    (∀ (k : Key) (e : Entry), (map.insert key entry)[k]? = some e → P e) ↔
      P entry ∧ ∀ (k : Key) (e : Entry), map[k]? = some e → k ≠ key → P e := by
  constructor
  · intro h
    refine ⟨h key entry (by simp), fun k e hk hne => h k e ?_⟩
    rw [Std.ExtTreeMap.getElem?_insert,
      if_neg fun hc => hne (Std.LawfulEqCmp.eq_of_compare hc).symm]
    exact hk
  · rintro ⟨hentry, hothers⟩ k e hk
    rw [Std.ExtTreeMap.getElem?_insert] at hk
    split at hk
    · cases hk
      exact hentry
    · next hne =>
      exact hothers k e hk fun heq => hne (heq ▸ Std.ReflCmp.compare_self)

theorem le_iff_ne_lt {a b : UInt64} : a ≤ b ∧ b ≠ a ↔ a < b := by
  rw [UInt64.le_iff_toNat_le, UInt64.lt_iff_toNat_lt, Ne, ← UInt64.toNat_inj]
  omega

theorem holders_insert_eq_one : holders (map.insert key entry) entry.useTime = 1 ↔
    ∀ (k : Key) (e : Entry), map[k]? = some e → k ≠ key → e.useTime ≠ entry.useTime := by
  have hsum := sumValues_insert (holds entry.useTime) map key entry
  have hone : holds entry.useTime entry = 1 := if_pos rfl
  have hzero : holders (map.erase key) entry.useTime = 0 ↔
      holders (map.insert key entry) entry.useTime = 1 := by
    rw [holders, holders, hsum, hone]
    omega
  rw [← hzero, holders_eq_zero]
  simp only [Std.ExtTreeMap.getElem?_erase]
  constructor
  · intro h k e hk hne
    refine h k e ?_
    rw [if_neg fun hc => hne (Std.LawfulEqCmp.eq_of_compare hc).symm]
    exact hk
  · intro h k e hk
    split at hk
    · cases hk
    · next hne => exact h k e hk fun heq => hne (heq ▸ Std.ReflCmp.compare_self)

/-- The time of the entry is the least, and that of no other. -/
theorem minimalTime_insert_first (hne : entry.useTime ≠ 0)
    (hmap : idx'.map = idx.map.insert key entry) (hmin : idx'.minimalEntryTime = entry.useTime)
    (hcount : idx'.entriesWithMinimalTimeCount = 1) :
    MinimalTime idx' ↔ ∀ (other : Key) (e : Entry),
      idx.map[other]? = some e → other ≠ key → entry.useTime < e.useTime := by
  rw [MinimalTime, hmap, hmin, hcount, eq_comm (a := 1), holders_insert_eq_one, forall_insert]
  constructor
  · intro h other e hother hkey
    obtain ⟨⟨-, hle⟩, hunique⟩ := h hne
    exact le_iff_ne_lt.mp ⟨hle other e hother hkey, hunique other e hother hkey⟩
  · intro h _
    refine ⟨⟨UInt64.le_refl _, fun other e hother hkey => ?_⟩, fun other e hother hkey => ?_⟩
    · exact (le_iff_ne_lt.mpr (h other e hother hkey)).1
    · exact (le_iff_ne_lt.mpr (h other e hother hkey)).2

/-- The minimal time stays, with a count that follows the entry. -/
theorem minimalTime_insert_same (h : MinimalTime idx) (hne : idx.minimalEntryTime ≠ 0)
    (hmap : idx'.map = idx.map.insert key entry)
    (hmin : idx'.minimalEntryTime = idx.minimalEntryTime)
    (hcount : idx'.entriesWithMinimalTimeCount +
        holds idx.minimalEntryTime (idx.map.getD key {}) =
      idx.entriesWithMinimalTimeCount + holds idx.minimalEntryTime entry) :
    MinimalTime idx' ↔ idx.minimalEntryTime ≤ entry.useTime := by
  obtain ⟨hle, hholders⟩ := h hne
  have hinsert := holders_insert idx.map key entry hne
  rw [MinimalTime, hmap, hmin, forall_insert]
  constructor
  · intro h
    exact (h hne).1.1
  · intro hentry _
    exact ⟨⟨hentry, fun other e hother _ => hle other e hother⟩, by omega⟩

theorem le_iff_ne_zero {a m : UInt64} (hm : m ≠ 0) (h : ¬(a ≠ 0 ∧ (a < m ∨ m = 0))) :
    m ≤ a ↔ a ≠ 0 := by
  constructor
  · rintro hle rfl
    rw [UInt64.le_iff_toNat_le] at hle
    exact hm (UInt64.toNat_inj.mp (Nat.le_zero.mp hle))
  · exact fun ha => UInt64.not_lt.mp fun hlt => h ⟨ha, .inl hlt⟩

theorem followMinimal_minimalTime (h : MinimalTime idx) (halready : already = idx.map.getD key {})
    (hfollow : idx.followMinimal already entry = .ok idx') :
    MinimalTime { idx' with map := idx'.map.insert key entry } ↔ SafeStore key entry idx := by
  subst halready
  rw [Index.followMinimal] at hfollow
  split at hfollow
  · next hfirst =>
    cases hfollow
    rw [minimalTime_insert_first hfirst.1 (show _ = idx.map.insert key entry from rfl) rfl rfl]
    constructor
    · exact fun hless => ⟨fun _ _ => hless, fun _ => .inl hfirst.1⟩
    · intro hsafe other e hother hkey
      by_cases hzero : idx.minimalEntryTime = 0
      · exact hsafe.1 hzero hfirst.1 other e hother hkey
      · have hlt := hfirst.2.resolve_right hzero
        exact UInt64.lt_of_lt_of_le hlt ((h hzero).1 other e hother)
  next hfirst =>
  by_cases hzero : idx.minimalEntryTime = 0
  · rw [if_neg fun h => h.1 hzero] at hfollow
    cases hfollow
    have htime : entry.useTime = 0 := by
      by_contra hne
      exact hfirst ⟨hne, .inr hzero⟩
    exact iff_of_true (minimalTime_of_zero hzero)
      ⟨fun _ hne => absurd htime hne, fun hne => absurd hzero hne⟩
  have hsafe : SafeStore key entry idx ↔ entry.useTime ≠ 0 ∨
      (idx.map.getD key {}).useTime = idx.minimalEntryTime ∧
        idx.entriesWithMinimalTimeCount = 1 :=
    ⟨fun h => h.2 hzero, fun h => ⟨fun heq => absurd heq hzero, fun _ => h⟩⟩
  have hstay : ∀ idx'' : Index, idx''.map = idx.map.insert key entry →
      idx''.minimalEntryTime = idx.minimalEntryTime →
      idx''.entriesWithMinimalTimeCount +
          holds idx.minimalEntryTime (idx.map.getD key {}) =
        idx.entriesWithMinimalTimeCount + holds idx.minimalEntryTime entry →
      ((idx.map.getD key {}).useTime = idx.minimalEntryTime →
        idx.entriesWithMinimalTimeCount = 1 → entry.useTime ≠ 0) →
      (MinimalTime idx'' ↔ SafeStore key entry idx) := by
    intro idx'' hmap hmin hcount hlast
    rw [minimalTime_insert_same h hzero hmap hmin hcount, le_iff_ne_zero hzero hfirst, hsafe]
    exact ⟨.inl, fun h => h.elim id fun h => hlast h.1 h.2⟩
  split at hfollow
  · next hother =>
    split at hfollow
    · next hjoins =>
      split at hfollow
      · cases hfollow
      · cases hfollow
        refine hstay _ rfl rfl ?_ fun _ _ => hjoins ▸ hzero
        have hnot : (idx.map.getD key {}).useTime ≠ idx.minimalEntryTime :=
          fun heq => hother.2 (heq.trans hjoins.symm)
        rw [holds_ne hnot, holds_eq hjoins]
    next hjoins =>
    split at hfollow
    · next hleaves =>
      obtain ⟨hmap, hcount, hmin⟩ := dropMinimal_count hfollow
      by_cases hlast : idx'.entriesWithMinimalTimeCount = 0
      · rw [if_pos hlast] at hmin
        refine iff_of_true (minimalTime_of_zero hmin) (hsafe.mpr (.inr ⟨hleaves, ?_⟩))
        rw [hcount, hlast]
      · rw [if_neg hlast] at hmin
        refine hstay _ (congrArg (·.insert key entry) hmap) hmin ?_ fun _ hone => by omega
        rw [holds_eq hleaves, holds_ne hjoins, hcount]
    · next hleaves =>
      cases hfollow
      refine hstay _ rfl rfl ?_ fun heq => absurd heq hleaves
      rw [holds_ne hleaves, holds_ne hjoins]
  · next hother =>
    cases hfollow
    have hequal : (idx.map.getD key {}).useTime = entry.useTime :=
      not_not.mp fun hne => hother ⟨hzero, hne⟩
    refine hstay _ rfl rfl ?_ fun heq _ => ?_
    · rw [holds, holds, hequal]
    · rw [← hequal, heq]
      exact hzero

theorem SameTimes.safeStore_iff (h : SameTimes idx idx') :
    SafeStore key entry idx' ↔ SafeStore key entry idx := by
  rw [SafeStore, SafeStore, h.map, h.minimalEntryTime, h.count]

theorem setMapEntry_minimalTime_iff (h : MinimalTime idx)
    (hset : idx.setMapEntry tracked key entry = .ok idx') :
    MinimalTime idx' ↔ SafeStore key entry idx := by
  rw [Index.setMapEntry] at hset
  obtain ⟨idx₁, hstats, hset⟩ := ok_of_bind hset
  obtain ⟨idx₂, hfollow, hset⟩ := ok_of_bind hset
  cases hset
  have hsame := updateStats_same hstats
  have hexcess : SameTimes idx { idx₁ with binlogExcessLength := idx₁.binlogExcessLength +
      if (idx.map.getD key {}).size ≠ 0 then sizeofStore tracked else 0 } :=
    ⟨hsame.map, hsame.minimalEntryTime, hsame.count⟩
  rw [← hexcess.safeStore_iff]
  exact followMinimal_minimalTime (hexcess.minimalTime_iff.mpr h)
    (congrArg (Std.ExtTreeMap.getD · key {}) hexcess.map.symm) hfollow

/-! ### Removing -/

/-- As `MinimalTime`, for some of the entries. -/
def MinimalAmong (P : Entry → Prop) (idx : Index) : Prop :=
  idx.minimalEntryTime ≠ 0 →
    (∀ (key : Key) (entry : Entry), idx.map[key]? = some entry → P entry →
      idx.minimalEntryTime ≤ entry.useTime) ∧
    idx.entriesWithMinimalTimeCount = holders idx.map idx.minimalEntryTime

theorem minimalTime_iff_among {P : Entry → Prop}
    (hall : ∀ (key : Key) (entry : Entry), idx.map[key]? = some entry → P entry) :
    MinimalTime idx ↔ MinimalAmong P idx := by
  refine imp_congr_right fun _ => and_congr_left fun _ => ?_
  exact forall₃_congr fun key entry hentry =>
    ⟨fun hle _ => hle, fun hle => hle (hall key entry hentry)⟩

theorem SameTimes.minimalAmong_iff {P : Entry → Prop} (h : SameTimes idx idx') :
    MinimalAmong P idx' ↔ MinimalAmong P idx := by
  rw [MinimalAmong, MinimalAmong, h.map, h.minimalEntryTime, h.count]

/-- The minimal time is forgotten with its last holder. -/
theorem eraseMapEntry_minimal (herase : idx.eraseMapEntry key = .ok idx') :
    idx'.minimalEntryTime = 0 ∨ idx'.minimalEntryTime = idx.minimalEntryTime ∧
      idx'.entriesWithMinimalTimeCount + share (holds idx.minimalEntryTime) idx.map key =
        idx.entriesWithMinimalTimeCount := by
  rw [Index.eraseMapEntry] at herase
  cases hk : idx.map[key]? with
  | none =>
    rw [hk] at herase
    cases herase
    refine .inr ⟨rfl, ?_⟩
    rw [share, hk]
    rfl
  | some entry =>
    simp only [hk] at herase
    obtain ⟨idx₁, hstats, herase⟩ := ok_of_bind herase
    have hsame := updateStats_same hstats
    have hshare : share (holds idx.minimalEntryTime) idx.map key =
        holds idx.minimalEntryTime entry := by
      rw [share, hk]
      rfl
    rw [hshare, ← hsame.count, ← hsame.minimalEntryTime]
    split at herase
    · next hmin =>
      obtain ⟨idx₂, hdrop, herase⟩ := ok_of_bind herase
      obtain ⟨-, hcount, hnext⟩ := dropMinimal_count hdrop
      cases herase
      dsimp only
      rw [hnext]
      split
      · exact .inl rfl
      · exact .inr ⟨rfl, by rw [holds_eq hmin.2, hcount]⟩
    · next hmin =>
      cases herase
      by_cases hzero : idx₁.minimalEntryTime = 0
      · exact .inl hzero
      · exact .inr ⟨rfl, by rw [holds_ne fun heq => hmin ⟨hzero, heq⟩, Nat.add_zero]⟩

theorem MinimalAmong.eraseMapEntry {P : Entry → Prop} (h : MinimalAmong P idx)
    (herase : idx.eraseMapEntry key = .ok idx') : MinimalAmong P idx' := by
  have hmap := eraseMapEntry_map herase
  intro hne
  obtain ⟨hmin, hcount⟩ := (eraseMapEntry_minimal herase).resolve_left hne
  rw [hmin] at hne
  obtain ⟨hle, hholders⟩ := h hne
  have hsum := sumValues_erase_add (holds idx.minimalEntryTime) idx.map key
  rw [hmin, hmap]
  refine ⟨fun other entry hother => hle other entry ?_, by rw [holders] at hholders ⊢; omega⟩
  rw [Std.ExtTreeMap.getElem?_erase] at hother
  split at hother
  · cases hother
  · exact hother

/-! ### Accesses -/

/-- An access may not take the minimal time from an entry nor give it to one, nor a lesser time. -/
def SafeAccess (key : Key) (useTime : UInt64) (idx : Index) : Prop :=
  idx.minimalEntryTime ≠ 0 → ∀ entry : Entry, idx.map[key]? = some entry →
    idx.minimalEntryTime ≤ useTime ∧
      (entry.useTime = idx.minimalEntryTime ↔ useTime = idx.minimalEntryTime)

theorem setUseTime_minimalTime_iff (h : MinimalTime idx) :
    MinimalTime (idx.setUseTime key useTime) ↔ SafeAccess key useTime idx := by
  by_cases hzero : idx.minimalEntryTime = 0
  · exact iff_of_true (minimalTime_of_zero hzero) fun hne => absurd hzero hne
  obtain ⟨hle, hholders⟩ := h hzero
  cases hk : idx.map[key]? with
  | none =>
    refine iff_of_true ?_ fun _ entry hentry => ?_
    · rw [Index.setUseTime, modify_of_getElem?_eq_none idx.map key hk]
      exact h
    · rw [hk] at hentry
      cases hentry
  | some entry =>
    have hinsert := holders_insert idx.map key (entry.withUseTime useTime) hzero
    have hget : idx.map.getD key {} = entry := by
      rw [Std.ExtTreeMap.getD_eq_getD_getElem?, hk, Option.getD_some]
    have hsafe : SafeAccess key useTime idx ↔ idx.minimalEntryTime ≤ useTime ∧
        (entry.useTime = idx.minimalEntryTime ↔ useTime = idx.minimalEntryTime) :=
      ⟨fun h => h hzero entry hk, fun h _ e he => Option.some.inj (hk.symm.trans he) ▸ h⟩
    have hcount : idx.entriesWithMinimalTimeCount =
          holders (idx.map.insert key (entry.withUseTime useTime)) idx.minimalEntryTime ↔
        (entry.useTime = idx.minimalEntryTime ↔ useTime = idx.minimalEntryTime) := by
      rw [hget, holds, holds] at hinsert
      change holders _ _ + (if entry.useTime = _ then 1 else 0) =
        holders _ _ + (if useTime = _ then 1 else 0) at hinsert
      by_cases hwas : entry.useTime = idx.minimalEntryTime <;>
        by_cases hnow : useTime = idx.minimalEntryTime <;>
        simp only [hwas, hnow, if_true, if_false] at hinsert ⊢ <;> simp <;> omega
    rw [Index.setUseTime, modify_eq_insert idx.map key hk, hsafe, ← hcount, MinimalTime]
    dsimp only
    rw [forall_insert]
    constructor
    · intro h
      exact ⟨(h hzero).1.1, (h hzero).2⟩
    · rintro ⟨hmin, hnumber⟩ _
      exact ⟨⟨hmin, fun other e hother _ => hle other e hother⟩, hnumber⟩

/-! ### Pruning -/

def holdersIn (entries : List (Key × Entry)) (useTime : UInt64) : Nat :=
  (entries.map fun p => holds useTime p.2).sum

theorem holdersIn_eq_zero {entries : List (Key × Entry)}
    (h : ∀ p ∈ entries, p.2.useTime ≠ useTime) : holdersIn entries useTime = 0 := by
  rw [holdersIn, List.sum_eq_zero_iff]
  intro n hn
  obtain ⟨p, hp, rfl⟩ := List.mem_map.mp hn
  exact holds_ne (h p hp)

/-- The minimal time of the entries that were visited and are not too old. -/
structure Visited (before : UInt64) (done : List (Key × Entry)) (idx : Index) : Prop where
  none : idx.minimalEntryTime = 0 → ∀ p ∈ done, p.2.useTime ≤ before
  above : idx.minimalEntryTime ≠ 0 → before < idx.minimalEntryTime
  le : idx.minimalEntryTime ≠ 0 → ∀ p ∈ done, before < p.2.useTime →
    idx.minimalEntryTime ≤ p.2.useTime
  count : idx.minimalEntryTime ≠ 0 →
    idx.entriesWithMinimalTimeCount = holdersIn done idx.minimalEntryTime

theorem forall_mem_concat {α : Type} {P : α → Prop} {l : List α} {a : α} :
    (∀ p ∈ l ++ [a], P p) ↔ (∀ p ∈ l, P p) ∧ P a := by
  simp [List.mem_append, or_imp, forall_and]

theorem holdersIn_concat (done : List (Key × Entry)) (p : Key × Entry) (useTime : UInt64) :
    holdersIn (done ++ [p]) useTime = holdersIn done useTime + holds useTime p.2 := by
  simp [holdersIn]

theorem visit_visited {before : UInt64} {done : List (Key × Entry)} {s : TimeStale}
    (h : Visited before done s.index) (p : Key × Entry) :
    Visited before (done ++ [p]) (TimeStale.visit before s p).index := by
  rw [TimeStale.visit]
  split
  · next hold =>
    constructor
    · exact fun hzero => forall_mem_concat.mpr ⟨h.none hzero, hold⟩
    · exact h.above
    · exact fun hne => forall_mem_concat.mpr
        ⟨h.le hne, fun hlt => absurd hold (UInt64.not_le.mpr hlt)⟩
    · intro hne
      have hother : p.2.useTime ≠ s.index.minimalEntryTime := by
        intro heq
        exact absurd (h.above hne) (UInt64.not_lt.mpr (heq ▸ hold))
      dsimp only
      rw [holdersIn_concat, holds_ne hother, h.count hne, Nat.add_zero]
  next hnew =>
  have hlater := UInt64.not_le.mp hnew
  split
  · next hleast =>
    have hgreater : ∀ q ∈ done, before < q.2.useTime → p.2.useTime < q.2.useTime := by
      intro q hq hlt
      by_cases hzero : s.index.minimalEntryTime = 0
      · exact absurd (h.none hzero q hq) (UInt64.not_le.mpr hlt)
      · exact UInt64.lt_of_lt_of_le (hleast.resolve_left hzero) (h.le hzero q hq hlt)
    constructor
    · intro hzero
      change p.2.useTime = 0 at hzero
      rw [hzero, UInt64.lt_iff_toNat_lt] at hlater
      exact absurd hlater (Nat.not_lt_zero _)
    · exact fun _ => hlater
    · exact fun _ => forall_mem_concat.mpr
        ⟨fun q hq hlt => UInt64.le_of_lt (hgreater q hq hlt), fun _ => UInt64.le_refl _⟩
    · intro _
      have hnone : holdersIn done p.2.useTime = 0 := by
        refine holdersIn_eq_zero fun q hq heq => ?_
        exact absurd (hgreater q hq (heq ▸ hlater)) (heq ▸ UInt64.lt_irrefl _)
      dsimp only
      rw [holdersIn_concat, hnone, holds_eq rfl]
  next hmore =>
  obtain ⟨hzero, hless⟩ := not_or.mp hmore
  split
  · next hequal =>
    constructor
    · exact fun h => absurd h hzero
    · exact h.above
    · exact fun hne => forall_mem_concat.mpr ⟨h.le hne, fun _ => UInt64.not_lt.mp hless⟩
    · intro hne
      dsimp only
      rw [holdersIn_concat, holds_eq hequal.symm, h.count hne]
  · next hequal =>
    constructor
    · exact fun h => absurd h hzero
    · exact h.above
    · exact fun hne => forall_mem_concat.mpr ⟨h.le hne, fun _ => UInt64.not_lt.mp hless⟩
    · intro hne
      rw [holdersIn_concat, holds_ne fun heq => hequal heq.symm, h.count hne, Nat.add_zero]

theorem foldl_visited {before : UInt64} (entries : List (Key × Entry)) {done : List (Key × Entry)}
    {s : TimeStale} (h : Visited before done s.index) :
    Visited before (done ++ entries) (entries.foldl (TimeStale.visit before) s).index := by
  induction entries generalizing done s with
  | nil => rwa [List.append_nil]
  | cons p entries ih =>
    have hrest := ih (visit_visited h p)
    rwa [List.append_assoc] at hrest

/-- The walk over the entries, which a greater minimal time spares. -/
def Walks (settings : Settings) (before : UInt64) (idx : Index) : Prop :=
  settings.totalTimeLimit ≠ 0 ∧ idx.minimalEntryTime ≠ 0 ∧ idx.minimalEntryTime ≤ before

theorem collectTimeStale_walks {settings : Settings} {before : UInt64}
    {entries : List (Key × Entry)} (hwalks : Walks settings before idx)
    (hentries : entries.Perm idx.map.toList) :
    MinimalAmong (fun entry => before < entry.useTime)
      (collectTimeStale settings before idx entries).index := by
  have hmap := collectTimeStale_map settings before idx entries
  have hguard : ¬(settings.totalTimeLimit = 0 ∨ idx.minimalEntryTime = 0 ∨
      before < idx.minimalEntryTime) := by
    rintro (hlimit | hzero | hlt)
    · exact hwalks.1 hlimit
    · exact hwalks.2.1 hzero
    · exact absurd hwalks.2.2 (UInt64.not_le.mpr hlt)
  have hvisited : Visited before entries (collectTimeStale settings before idx entries).index := by
    rw [collectTimeStale, if_neg hguard]
    refine @foldl_visited before entries [] _ ⟨?_, ?_, ?_, ?_⟩
    · exact fun _ _ hp => absurd hp List.not_mem_nil
    all_goals exact fun hne => absurd rfl hne
  intro hne
  refine ⟨fun key entry hentry hlt => ?_, ?_⟩
  · rw [hmap] at hentry
    exact hvisited.le hne (key, entry)
      (hentries.mem_iff.mpr (mem_toList_iff_getElem?_eq_some.mpr hentry)) hlt
  · rw [hvisited.count hne, hmap]
    exact (hentries.map fun p => holds _ p.2).sum_eq

theorem collectTimeStale_spared {settings : Settings} {before : UInt64}
    {entries : List (Key × Entry)} (hspared : ¬Walks settings before idx) :
    (collectTimeStale settings before idx entries).index = idx := by
  rw [collectTimeStale, if_pos]
  by_contra hguard
  obtain ⟨hlimit, hrest⟩ := not_or.mp hguard
  obtain ⟨hzero, hlt⟩ := not_or.mp hrest
  exact hspared ⟨hlimit, hzero, UInt64.not_lt.mp hlt⟩

/-- The keys are removed one after the other, and the time and the statistics may change. -/
def Erases : List Key → Index → Index → Prop
  | [], idx, idx' => SameTimes idx idx'
  | key :: keys, idx, idx' => ∃ idx₁ idx₂, SameTimes idx idx₁ ∧
    idx₁.eraseMapEntry key = .ok idx₂ ∧ Erases keys idx₂ idx'

theorem erases_minimalAmong {P : Entry → Prop} (h : Erases keys idx idx')
    (hmin : MinimalAmong P idx) : MinimalAmong P idx' := by
  induction keys generalizing idx with
  | nil => exact h.minimalAmong_iff.mpr hmin
  | cons key keys ih =>
    obtain ⟨idx₁, idx₂, hsame, herase, hrest⟩ := h
    exact ih hrest ((hsame.minimalAmong_iff.mpr hmin).eraseMapEntry herase)

theorem erases_map (h : Erases keys idx idx') {other : Key} {e : Entry}
    (hother : idx'.map[other]? = some e) : idx.map[other]? = some e ∧ other ∉ keys := by
  induction keys generalizing idx with
  | nil => exact ⟨SameTimes.map h ▸ hother, List.not_mem_nil⟩
  | cons key keys ih =>
    obtain ⟨idx₁, idx₂, hsame, herase, hmore⟩ := h
    obtain ⟨hrest, hkeys⟩ := ih hmore
    rw [eraseMapEntry_map herase, Std.ExtTreeMap.getElem?_erase] at hrest
    split at hrest
    · cases hrest
    · next hne =>
      refine ⟨hsame.map ▸ hrest, ?_⟩
      rintro (_ | ⟨_, hmem⟩)
      · exact hne Std.ReflCmp.compare_self
      · exact hkeys hmem

/-! ### Runs -/

/-- What is done to the entries, call by call: the end of a store, a removal, an access that is
written or replayed, and pruning with what it removes at once. -/
inductive Change where
  | rest
  | store (key : Key) (entry : Entry)
  | erase (key : Key)
  | access (key : Key) (useTime : UInt64)
  | prune (before : UInt64) (keys : List Key)
  | clear

def Change.Makes (settings : Settings) : Change → Index → Index → Prop
  | .rest, idx, idx' => SameTimes idx idx'
  | .store key entry, idx, idx' =>
    idx.setMapEntry settings.trackEstimatedTime key entry = .ok idx'
  | .erase key, idx, idx' => idx.eraseMapEntry key = .ok idx'
  | .access key useTime, idx, idx' => idx' = idx.setUseTime key useTime
  | .prune before keys, idx, idx' => ∃ entries : List (Key × Entry),
    entries.Perm idx.map.toList ∧
      Erases keys (collectTimeStale settings before idx entries).index idx'
  | .clear, _, idx' => idx' = {}

def Change.Safe (settings : Settings) : Change → Index → Prop
  | .store key entry, idx => SafeStore key entry idx
  | .access key useTime, idx => SafeAccess key useTime idx
  | .prune before keys, idx => Walks settings before idx →
    ∀ (key : Key) (entry : Entry), idx.map[key]? = some entry → entry.useTime ≤ before → key ∈ keys
  | .rest, _ | .erase _, _ | .clear, _ => True

def IndexStep (settings : Settings) (idx idx' : Index) : Prop :=
  ∃ change : Change, change.Makes settings idx idx'

theorem prune_minimalTime {settings : Settings} {before : UInt64} (h : MinimalTime idx)
    (hmakes : (Change.prune before keys).Makes settings idx idx')
    (hsafe : (Change.prune before keys).Safe settings idx) : MinimalTime idx' := by
  obtain ⟨entries, hentries, herases⟩ := hmakes
  by_cases hwalks : Walks settings before idx
  · refine (minimalTime_iff_among fun key entry hentry => ?_).mpr
      (erases_minimalAmong herases (collectTimeStale_walks hwalks hentries))
    obtain ⟨hbefore, hkey⟩ := erases_map herases hentry
    rw [collectTimeStale_map] at hbefore
    exact UInt64.not_le.mp fun hold => hkey (hsafe hwalks key entry hbefore hold)
  · rw [collectTimeStale_spared hwalks] at herases
    refine (minimalTime_iff_among fun _ _ _ => trivial).mpr (erases_minimalAmong herases ?_)
    exact (minimalTime_iff_among fun _ _ _ => trivial).mp h

theorem change_minimalTime {settings : Settings} {change : Change} (h : MinimalTime idx)
    (hmakes : change.Makes settings idx idx') (hsafe : change.Safe settings idx) :
    MinimalTime idx' := by
  cases change with
  | rest => exact hmakes.minimalTime_iff.mpr h
  | store key entry => exact (setMapEntry_minimalTime_iff h hmakes).mpr hsafe
  | erase key =>
    refine (minimalTime_iff_among fun _ _ _ => trivial).mpr (MinimalAmong.eraseMapEntry ?_ hmakes)
    exact (minimalTime_iff_among fun _ _ _ => trivial).mp h
  | access key useTime =>
    subst hmakes
    exact (setUseTime_minimalTime_iff h).mpr hsafe
  | prune before keys => exact prune_minimalTime h hmakes hsafe
  | clear =>
    subst hmakes
    exact minimalTime_of_zero rfl

end TelegramClient.Cache
