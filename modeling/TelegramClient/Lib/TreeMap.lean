import Mathlib

/-! Listings of extensional tree maps up to permutation, as sums and counts
over the entries need them. -/

namespace Std.ExtTreeMap

variable {α β : Type*} {cmp : α → α → Ordering} [TransCmp cmp] [LawfulEqCmp cmp]

omit [LawfulEqCmp cmp] in
theorem nodup_toList (t : ExtTreeMap α β cmp) : t.toList.Nodup := by
  refine (distinct_keys_toList (t := t)).imp ?_
  rintro a b h rfl
  exact h ReflCmp.compare_self

omit [LawfulEqCmp cmp] in
theorem mem_of_getElem?_eq_some {t : ExtTreeMap α β cmp} {k : α} {v : β} (h : t[k]? = some v) :
    k ∈ t := by
  rw [mem_iff_isSome_getElem?, h, Option.isSome_some]

theorem toList_perm_erase {t : ExtTreeMap α β cmp} {k : α} {v : β} (h : t[k]? = some v) :
    t.toList.Perm ((k, v) :: (t.erase k).toList) := by
  have hk : (k, v) ∉ (t.erase k).toList := by
    simp [mem_toList_iff_getElem?_eq_some]
  refine (List.perm_ext_iff_of_nodup t.nodup_toList
    (List.nodup_cons.mpr ⟨hk, nodup_toList _⟩)).mpr ?_
  rintro ⟨a, b⟩
  simp only [List.mem_cons, Prod.mk.injEq, mem_toList_iff_getElem?_eq_some, getElem?_erase,
    LawfulEqCmp.compare_eq_iff_eq]
  by_cases hka : k = a
  · subst a
    simp [h, eq_comm]
  · simp [hka, Ne.symm hka]

theorem erase_insert {t : ExtTreeMap α β cmp} {k : α} {v : β} :
    (t.insert k v).erase k = t.erase k := by
  refine ext_getElem? fun a => ?_
  simp only [getElem?_erase, getElem?_insert]
  split <;> rfl

theorem erase_of_getElem?_eq_none {t : ExtTreeMap α β cmp} {k : α} (h : t[k]? = none) :
    t.erase k = t := by
  refine ext_getElem? fun a => ?_
  rw [getElem?_erase]
  split
  · next hka => rw [← LawfulEqCmp.eq_of_compare hka, h]
  · rfl

theorem toList_insert_perm_erase (t : ExtTreeMap α β cmp) (k : α) (v : β) :
    (t.insert k v).toList.Perm ((k, v) :: (t.erase k).toList) := by
  have h := toList_perm_erase (t := t.insert k v) (k := k) (v := v) (by simp)
  rwa [erase_insert] at h

theorem toList_insert_perm {t : ExtTreeMap α β cmp} {k : α} (v : β) (h : t[k]? = none) :
    (t.insert k v).toList.Perm ((k, v) :: t.toList) := by
  have hp := toList_insert_perm_erase t k v
  rwa [erase_of_getElem?_eq_none h] at hp

theorem toList_insert_empty (k : α) (v : β) :
    ((∅ : ExtTreeMap α β cmp).insert k v).toList = [(k, v)] := by
  have hp := toList_insert_perm (t := (∅ : ExtTreeMap α β cmp)) (k := k) v (by simp)
  rw [toList_eq_nil_iff.mpr rfl] at hp
  exact List.perm_singleton.mp hp

theorem mem_map_snd_toList {t : ExtTreeMap α β cmp} {v : β} :
    v ∈ t.toList.map Prod.snd ↔ ∃ k : α, t[k]? = some v := by
  rw [List.mem_map, Prod.exists]
  simp only [mem_toList_iff_getElem?_eq_some, exists_eq_right]

theorem flatMap_toList_key {γ : Type*} [DecidableEq α] (t : ExtTreeMap α β cmp) (k : α)
    (g : α → β → List γ) :
    (t.toList.flatMap fun p => if p.1 = k then g p.1 p.2 else []) = (t[k]?.elim [] (g k)) := by
  cases hk : t[k]? with
  | none =>
    refine List.flatMap_eq_nil_iff.mpr ?_
    rintro ⟨a, v⟩ hmem
    have hne : a ≠ k := by
      rintro rfl
      rw [mem_toList_iff_getElem?_eq_some, hk] at hmem
      cases hmem
    exact if_neg hne
  | some v =>
    have hmem : (k, v) ∈ t.toList := mem_toList_iff_getElem?_eq_some.mpr hk
    obtain ⟨l, r, hsplit⟩ := List.append_of_mem hmem
    have hdistinct := distinct_keys_toList (t := t)
    rw [hsplit, List.pairwise_append, List.pairwise_cons] at hdistinct
    have hleft : (l.flatMap fun p => if p.1 = k then g p.1 p.2 else []) = [] := by
      refine List.flatMap_eq_nil_iff.mpr ?_
      intro p hp
      refine if_neg ?_
      intro heq
      refine hdistinct.2.2 p hp (k, v) List.mem_cons_self ?_
      rw [heq]
      exact ReflCmp.compare_self
    have hright : (r.flatMap fun p => if p.1 = k then g p.1 p.2 else []) = [] := by
      refine List.flatMap_eq_nil_iff.mpr ?_
      intro p hp
      refine if_neg ?_
      intro heq
      refine hdistinct.2.1.1 p hp ?_
      rw [heq]
      exact ReflCmp.compare_self
    rw [hsplit, List.flatMap_append, List.flatMap_cons, hleft, hright, if_pos rfl]
    simp

/-! ### Sums over the values -/

def sumValues (f : β → Nat) (t : ExtTreeMap α β cmp) : Nat := (t.toList.map fun p => f p.2).sum

variable (f : β → Nat) (t : ExtTreeMap α β cmp) (k : α)

omit [LawfulEqCmp cmp] in
@[simp] theorem sumValues_empty : sumValues f (∅ : ExtTreeMap α β cmp) = 0 := by
  rw [sumValues, toList_eq_nil_iff.mpr rfl]
  rfl

/-- What the value of a key weighs in the sum, nothing when there is none. -/
def share : Nat := (t[k]?.map f).getD 0

theorem sumValues_erase_add : sumValues f (t.erase k) + share f t k = sumValues f t := by
  cases h : t[k]? with
  | none => simp [share, h, erase_of_getElem?_eq_none h]
  | some v =>
    have hp := ((toList_perm_erase h).map fun p => f p.2).sum_eq
    simp only [List.map_cons, List.sum_cons] at hp
    simp only [share, h, Option.map_some, Option.getD_some, sumValues]
    omega

theorem sumValues_insert (v : β) :
    sumValues f (t.insert k v) = sumValues f (t.erase k) + f v := by
  have hp := ((toList_insert_perm_erase t k v).map fun p => f p.2).sum_eq
  simp only [List.map_cons, List.sum_cons] at hp
  simp only [sumValues]
  omega

theorem sumValues_insert_add (v : β) :
    sumValues f (t.insert k v) + share f t k = sumValues f t + f v := by
  have h₁ := sumValues_erase_add f t k
  have h₂ := sumValues_insert f t k v
  omega

theorem modify_eq_insert {v : β} (h : t[k]? = some v) (g : β → β) :
    t.modify k g = t.insert k (g v) := by
  refine ext_getElem? fun a => ?_
  rw [getElem?_modify, getElem?_insert]
  split
  · rw [h, Option.map_some]
  · rfl

theorem modify_of_getElem?_eq_none (h : t[k]? = none) (g : β → β) : t.modify k g = t := by
  refine ext_getElem? fun a => ?_
  rw [getElem?_modify]
  split
  · next ha => rw [← LawfulEqCmp.eq_of_compare ha, h, Option.map_none]
  · rfl

theorem sumValues_modify {g : β → β} (hg : ∀ v, f (g v) = f v) :
    sumValues f (t.modify k g) = sumValues f t := by
  cases h : t[k]? with
  | none => rw [modify_of_getElem?_eq_none t k h]
  | some v =>
    have hs := sumValues_insert_add f t k (g v)
    simp only [share, h, Option.map_some, Option.getD_some, hg v] at hs
    rw [modify_eq_insert t k h]
    omega

/-! ### Dropping the smallest keys -/

section

variable {γ : Type*}

def dropMin : Nat → ExtTreeMap α γ cmp → ExtTreeMap α γ cmp
  | 0, t => t
  | n + 1, t =>
    match t.minKey? with
    | none => t
    | some k => dropMin n (t.erase k)

variable {n : Nat} {t : ExtTreeMap α γ cmp} {k l : α}

omit [LawfulEqCmp cmp] in
theorem mem_of_mem_dropMin (h : k ∈ t.dropMin n) : k ∈ t := by
  induction n generalizing t with
  | zero => exact h
  | succ n ih =>
    rw [dropMin] at h
    split at h
    · exact h
    · exact (mem_erase.mp (ih h)).2

omit [LawfulEqCmp cmp] in
theorem size_dropMin (n : Nat) (t : ExtTreeMap α γ cmp) : (t.dropMin n).size = t.size - n := by
  induction n generalizing t with
  | zero => rfl
  | succ n ih =>
    rw [dropMin]
    split
    · next h =>
      rw [minKey?_eq_none_iff] at h
      simp [h]
    · next m h =>
      rw [ih, size_erase, if_pos (contains_minKey? h)]
      omega

theorem lt_of_not_mem_dropMin (hk : k ∈ t) (hd : k ∉ t.dropMin n) (hl : l ∈ t.dropMin n) :
    cmp k l = .lt := by
  induction n generalizing t with
  | zero => exact absurd hk hd
  | succ n ih =>
    rw [dropMin] at hd hl
    split at hd
    · exact absurd hk hd
    · next m h =>
      simp only [h] at hl
      by_cases hmk : m = k
      · subst m
        have hle := (minKey?_eq_some_iff_mem_and_forall.mp h).2 l
          (mem_erase.mp (mem_of_mem_dropMin hl)).2
        have hne := (mem_erase.mp (mem_of_mem_dropMin hl)).1
        cases hc : cmp k l with
        | lt => rfl
        | eq => exact absurd hc hne
        | gt => simp [hc] at hle
      · refine ih (mem_erase.mpr ⟨fun hc => hmk (LawfulEqCmp.eq_of_compare hc), hk⟩) hd hl

omit [LawfulEqCmp cmp] in
theorem getElem?_dropMin (h : k ∈ t.dropMin n) : (t.dropMin n)[k]? = t[k]? := by
  induction n generalizing t with
  | zero => rfl
  | succ n ih =>
    rw [dropMin] at h ⊢
    split at h
    · rfl
    · next m hm =>
      rw [ih h, getElem?_erase, if_neg (mem_erase.mp (mem_of_mem_dropMin h)).1]

/-- The values that `dropMin` drops, from the smallest key on. -/
def takeMin : Nat → ExtTreeMap α γ cmp → List γ
  | 0, _ => []
  | n + 1, t =>
    match t.minKey? with
    | none => []
    | some k => t[k]?.toList ++ takeMin n (t.erase k)

/-- How many keys are greater than one. -/
def countAbove (t : ExtTreeMap α γ cmp) (k : α) : Nat :=
  t.toList.countP fun p => cmp k p.1 == .lt

theorem countAbove_lt_size (hk : k ∈ t) : t.countAbove k < t.size := by
  obtain ⟨v, hv⟩ := mem_iff_isSome_getElem?.mp hk |> Option.isSome_iff_exists.mp
  rw [countAbove, ← length_toList, List.Perm.countP_eq _ (toList_perm_erase hv),
    (toList_perm_erase hv).length_eq, List.countP_cons_of_neg (by simp [ReflCmp.compare_self])]
  exact Nat.lt_succ_of_le List.countP_le_length

theorem countAbove_erase (hl : l ∈ t) :
    t.countAbove k = (t.erase l).countAbove k + if cmp k l = .lt then 1 else 0 := by
  obtain ⟨v, hv⟩ := mem_iff_isSome_getElem?.mp hl |> Option.isSome_iff_exists.mp
  rw [countAbove, List.Perm.countP_eq _ (toList_perm_erase hv), List.countP_cons, countAbove]
  simp

theorem countAbove_eq_size (h : ∀ l ∈ t, cmp k l = .lt) : t.countAbove k = t.size := by
  rw [countAbove, ← length_toList, List.countP_eq_length]
  rintro ⟨a, v⟩ ha
  have hget := mem_toList_iff_getElem?_eq_some.mp ha
  rw [h a (mem_iff_isSome_getElem?.mpr (by simp [hget]))]
  rfl

theorem countAbove_insert_self {v : γ} : (t.insert k v).countAbove k = (t.erase k).countAbove k := by
  rw [countAbove_erase (t := t.insert k v) mem_insert_self, erase_insert,
    if_neg (by simp [ReflCmp.compare_self]), Nat.add_zero]

theorem mem_dropMin_iff (hk : k ∈ t) : k ∈ t.dropMin n ↔ t.countAbove k < t.size - n := by
  induction n generalizing t with
  | zero => exact iff_of_true hk (countAbove_lt_size hk)
  | succ n ih =>
    rw [dropMin]
    split
    · next h =>
      rw [minKey?_eq_none_iff] at h
      simp [h] at hk
    · next m h =>
      have hm := minKey?_mem h
      have hle := (minKey?_eq_some_iff_mem_and_forall.mp h).2
      have hsize : (t.erase m).size = t.size - 1 := by rw [size_erase, if_pos (contains_minKey? h)]
      by_cases hmk : m = k
      · subst m
        have hall : t.countAbove k = t.size - 1 := by
          rw [countAbove_erase (k := k) hm, if_neg (by simp [ReflCmp.compare_self]), ← hsize,
            Nat.add_zero]
          refine countAbove_eq_size fun a ha => ?_
          have hlt := hle a (mem_erase.mp ha).2
          have hne := (mem_erase.mp ha).1
          cases hc : cmp k a with
          | lt => rfl
          | eq => exact absurd hc hne
          | gt => simp [hc] at hlt
        have hout : k ∉ (t.erase k).dropMin n := fun hin =>
          (mem_erase.mp (mem_of_mem_dropMin hin)).1 ReflCmp.compare_self
        exact iff_of_false hout (by omega)
      · have hin : k ∈ t.erase m :=
          mem_erase.mpr ⟨fun hc => hmk (LawfulEqCmp.eq_of_compare hc), hk⟩
        have hnot : ¬cmp k m = .lt := fun hlt => by
          have h' := hle k hk
          rw [OrientedCmp.gt_of_lt hlt] at h'
          simp at h'
        rw [ih hin, countAbove_erase (k := k) hm, if_neg hnot, hsize, Nat.add_zero]
        omega

theorem mem_takeMin {v : γ} :
    v ∈ t.takeMin n ↔ ∃ k, t[k]? = some v ∧ k ∉ t.dropMin n := by
  induction n generalizing t with
  | zero =>
    simp only [takeMin, dropMin, List.not_mem_nil, false_iff, not_exists, not_and, not_not]
    exact fun k hk => mem_iff_isSome_getElem?.mpr (by simp [hk])
  | succ n ih =>
    rw [takeMin, dropMin]
    split
    · next h =>
      rw [minKey?_eq_none_iff] at h
      simp [h]
    · next m h =>
      simp only [List.mem_append, Option.mem_toList, ih]
      constructor
      · rintro (hm | ⟨k, hk, hd⟩)
        · exact ⟨m, hm, fun hin =>
            (mem_erase.mp (mem_of_mem_dropMin hin)).1 ReflCmp.compare_self⟩
        · rw [getElem?_erase] at hk
          split at hk
          · cases hk
          · exact ⟨k, hk, hd⟩
      · rintro ⟨k, hk, hd⟩
        by_cases hmk : m = k
        · exact .inl (hmk ▸ hk)
        · refine .inr ⟨k, ?_, hd⟩
          rw [getElem?_erase, if_neg fun hc => hmk (LawfulEqCmp.eq_of_compare hc)]
          exact hk

end

theorem ofList_toList [BEq α] [LawfulBEq α] [LawfulBEqCmp cmp] (t : ExtTreeMap α β cmp) :
    ofList t.toList cmp = t := by
  refine ext_getElem? fun k => ?_
  cases hk : t[k]? with
  | none =>
    apply getElem?_ofList_of_contains_eq_false
    rw [Bool.eq_false_iff]
    intro hmem
    rw [List.contains_iff_mem, List.mem_map] at hmem
    obtain ⟨⟨a, v⟩, hmem, rfl⟩ := hmem
    rw [mem_toList_iff_getElem?_eq_some, hk] at hmem
    cases hmem
  | some v =>
    exact getElem?_ofList_of_mem ReflCmp.compare_self distinct_keys_toList
      (mem_toList_iff_getElem?_eq_some.mpr hk)

end Std.ExtTreeMap
