import Mathlib

/-! Lists that are sorted by a comparison and have no repetitions, and tables of such lists. -/

namespace SortedLists

open Std

variable {κ α : Type*} {cmp : α → α → Ordering} {a b : α} {l l' : List α}

def Sorted (cmp : α → α → Ordering) (l : List α) : Prop := l.Pairwise fun a b => cmp a b = .lt

/-- The element takes its place, if it is not there. -/
def emplace (cmp : α → α → Ordering) (a : α) : List α → List α
  | [] => [a]
  | b :: l =>
    match cmp a b with
    | .lt => a :: b :: l
    | .eq => b :: l
    | .gt => b :: emplace cmp a l

def sort (cmp : α → α → Ordering) (l : List α) : List α :=
  l.insertionSort fun a b => cmp a b ≠ .gt

variable [TransCmp cmp] [LawfulEqCmp cmp]

omit [TransCmp cmp] in
theorem mem_emplace : b ∈ emplace cmp a l ↔ b = a ∨ b ∈ l := by
  induction l with
  | nil => simp [emplace]
  | cons c l ih =>
    rw [emplace]
    cases hcmp : cmp a c with
    | lt => simp
    | eq => simp [LawfulEqCmp.eq_of_compare hcmp]
    | gt =>
      simp only [List.mem_cons, ih]
      exact or_left_comm

theorem Sorted.emplace (h : Sorted cmp l) (a : α) : Sorted cmp (emplace cmp a l) := by
  induction l with
  | nil => exact List.pairwise_singleton _ _
  | cons c l ih =>
    obtain ⟨hc, hl⟩ := List.pairwise_cons.mp h
    rw [SortedLists.emplace]
    cases hcmp : cmp a c with
    | lt =>
      refine List.pairwise_cons.mpr ⟨fun d hd => ?_, h⟩
      rcases List.mem_cons.mp hd with rfl | hd
      · exact hcmp
      · exact TransCmp.lt_trans hcmp (hc d hd)
    | eq => exact h
    | gt =>
      refine List.pairwise_cons.mpr ⟨fun d hd => ?_, ih hl⟩
      rcases mem_emplace.mp hd with rfl | hd
      · exact OrientedCmp.lt_of_gt hcmp
      · exact hc d hd

omit [LawfulEqCmp cmp] in
theorem Sorted.nodup (h : Sorted cmp l) : l.Nodup := by
  refine h.imp fun {a b} hlt heq => ?_
  have hself : cmp b b = .eq := ReflCmp.compare_self
  rw [heq, hself] at hlt
  cases hlt

omit [LawfulEqCmp cmp] in
theorem Sorted.eq_of_perm (h : Sorted cmp l) (h' : Sorted cmp l') (hperm : l.Perm l') : l = l' := by
  refine hperm.eq_of_pairwise (fun a b _ _ hab hba => ?_) h h'
  have hswap : cmp b a = (cmp a b).swap := OrientedCmp.eq_swap
  rw [hswap, hab] at hba
  cases hba

omit [LawfulEqCmp cmp] in
/-- A sorted list is known by its elements. -/
theorem Sorted.eq_of_mem_iff (h : Sorted cmp l) (h' : Sorted cmp l') (hmem : ∀ a, a ∈ l ↔ a ∈ l') :
    l = l' :=
  h.eq_of_perm h' ((List.perm_ext_iff_of_nodup h.nodup h'.nodup).mpr hmem)

omit [TransCmp cmp] [LawfulEqCmp cmp] in
theorem mem_sort : a ∈ sort cmp l ↔ a ∈ l := List.mem_insertionSort _

theorem sorted_sort (h : l.Nodup) : Sorted cmp (sort cmp l) := by
  have htotal : Std.Total fun a b : α => cmp a b ≠ .gt :=
    ⟨fun a b => by
      have hswap : cmp b a = (cmp a b).swap := OrientedCmp.eq_swap
      rw [hswap]
      cases cmp a b <;> simp⟩
  have htrans : IsTrans α fun a b => cmp a b ≠ .gt := by
    refine ⟨fun a b c hab hbc => ?_⟩
    exact Ordering.isLE_iff_ne_gt.mp (TransCmp.isLE_trans (Ordering.isLE_iff_ne_gt.mpr hab)
      (Ordering.isLE_iff_ne_gt.mpr hbc))
  have hle : (sort cmp l).Pairwise fun a b => cmp a b ≠ .gt := List.pairwise_insertionSort _ l
  have hnodup : (sort cmp l).Nodup := (List.perm_insertionSort _ l).nodup_iff.mpr h
  refine hle.imp₂ (fun a b hgt hne => ?_) hnodup
  cases hcmp : cmp a b with
  | lt => rfl
  | eq => exact absurd (LawfulEqCmp.eq_of_compare hcmp) hne
  | gt => exact absurd hcmp hgt

omit [TransCmp cmp] [LawfulEqCmp cmp] in
/-- A block of elements that stand together is taken out. -/
theorem takeWhile_append_dropWhile_eq_filter {before p : α → Bool}
    (hbefore : ∀ a ∈ l, before a → p a = false) (hdown : l.Pairwise fun a b => before b → before a)
    (htogether : l.Pairwise fun a b => p b → before a ∨ p a) :
    l.takeWhile before ++ (l.dropWhile before).dropWhile p = l.filter fun a => !p a := by
  induction l with
  | nil => rfl
  | cons a l ih =>
    obtain ⟨ha, hl⟩ := List.pairwise_cons.mp hdown
    obtain ⟨hpa, hpl⟩ := List.pairwise_cons.mp htogether
    have hrest := ih (fun b hb => hbefore b (List.mem_cons_of_mem a hb)) hl hpl
    cases hb : before a with
    | true => simp [hb, hbefore a List.mem_cons_self hb, hrest]
    | false =>
      have hdrop : l.dropWhile before = l ∧ l.takeWhile before = [] := by
        cases l with
        | nil => exact ⟨rfl, rfl⟩
        | cons b l =>
          have hbb : before b = false := by
            by_contra hbb
            have hba := ha b List.mem_cons_self (by simpa using hbb)
            rw [hb] at hba
            cases hba
          simp [hbb]
      rw [hdrop.1, hdrop.2, List.nil_append] at hrest
      rw [List.takeWhile_cons_of_neg (by simp [hb]), List.dropWhile_cons_of_neg (by simp [hb]),
        List.nil_append]
      cases hp : p a with
      | true => simp [hp, hrest]
      | false =>
        have hnone : ∀ b ∈ l, p b = false := by
          intro b hmem
          by_contra hpb
          rcases hpa b hmem (by simpa using hpb) with hba | hpa
          · rw [hb] at hba
            cases hba
          · rw [hp] at hpa
            cases hpa
        have hfilter : l.filter (fun b => !p b) = l :=
          List.filter_eq_self.mpr fun b hmem => by simp [hnone b hmem]
        simp [hp, hfilter]

/-! ### Tables -/

variable {cmpκ : κ → κ → Ordering} [TransCmp cmpκ] [LawfulEqCmp cmpκ]
  {t t' : ExtTreeMap κ (List α) cmpκ} {holds : κ → α → Prop} {k : κ}

/-- The element takes its place in the list of the key. -/
def put (cmp : α → α → Ordering) (t : ExtTreeMap κ (List α) cmpκ) (k : κ) (a : α) :
    ExtTreeMap κ (List α) cmpκ :=
  t.insert k (emplace cmp a (t[k]?.getD []))

/-- The lists of a table are sorted and have the elements for which `holds` holds. -/
structure Lists (cmp : α → α → Ordering) (t : ExtTreeMap κ (List α) cmpκ) (holds : κ → α → Prop) :
    Prop where
  sorted : ∀ k : κ, Sorted cmp (t[k]?.getD [])
  mem : ∀ (k : κ) (a : α), a ∈ t[k]?.getD [] ↔ holds k a

omit [LawfulEqCmp cmpκ] [TransCmp cmp] [LawfulEqCmp cmp] in
theorem Lists.congr {holds' : κ → α → Prop} (h : Lists cmp t holds)
    (hiff : ∀ k a, holds k a ↔ holds' k a) : Lists cmp t holds' :=
  ⟨h.sorted, fun k a => (h.mem k a).trans (hiff k a)⟩

omit [LawfulEqCmp cmpκ] [TransCmp cmp] [LawfulEqCmp cmp] in
theorem lists_empty : Lists cmp (∅ : ExtTreeMap κ (List α) cmpκ) fun _ _ => False := by
  constructor <;> simp [Sorted]

theorem Lists.put (h : Lists cmp t holds) (k : κ) (a : α) :
    Lists cmp (put cmp t k a) fun k' a' => holds k' a' ∨ k' = k ∧ a' = a := by
  have hself : (SortedLists.put cmp t k a)[k]?.getD [] = SortedLists.emplace cmp a (t[k]?.getD []) := by
    simp [SortedLists.put]
  have hother : ∀ k', k' ≠ k → (SortedLists.put cmp t k a)[k']? = t[k']? := by
    intro k' hk
    rw [SortedLists.put, ExtTreeMap.getElem?_insert,
      if_neg fun heq => hk (LawfulEqCmp.eq_of_compare heq).symm]
  constructor
  · intro k'
    by_cases hk : k' = k
    · rw [hk, hself]
      exact (h.sorted k).emplace a
    · rw [hother k' hk]
      exact h.sorted k'
  · intro k' a'
    by_cases hk : k' = k
    · rw [hk, hself, mem_emplace, h.mem, or_comm]
      simp
    · rw [hother k' hk, h.mem]
      simp [hk]

omit [LawfulEqCmp cmpκ] [LawfulEqCmp cmp] in
theorem Lists.getD_eq (h : Lists cmp t holds) (h' : Lists cmp t' holds) (k : κ) :
    t[k]?.getD [] = t'[k]?.getD [] :=
  (h.sorted k).eq_of_mem_iff (h'.sorted k) fun a => (h.mem k a).trans (h'.mem k a).symm

omit [TransCmp cmp] [LawfulEqCmp cmp] in
/-- Every key of the list is changed once. -/
theorem getElem?_foldl_insert {β : Type*} (f : List α → β → List α) {ps : List (κ × β)}
    (h : ps.Pairwise fun p q => p.1 ≠ q.1) (t : ExtTreeMap κ (List α) cmpκ) (k : κ) :
    (∀ b, (k, b) ∈ ps →
      (ps.foldl (fun t p => t.insert p.1 (f (t[p.1]?.getD []) p.2)) t)[k]? =
        some (f (t[k]?.getD []) b)) ∧
    ((∀ b, (k, b) ∉ ps) →
      (ps.foldl (fun t p => t.insert p.1 (f (t[p.1]?.getD []) p.2)) t)[k]? = t[k]?) := by
  induction ps generalizing t with
  | nil => simp
  | cons p ps ih =>
    obtain ⟨hp, hps⟩ := List.pairwise_cons.mp h
    have hrest := ih hps (t.insert p.1 (f (t[p.1]?.getD []) p.2))
    by_cases hk : p.1 = k
    · have hnone : ∀ b, (k, b) ∉ ps := fun b hb => hp (k, b) hb hk
      subst hk
      constructor
      · intro b hb
        rcases List.mem_cons.mp hb with heq | hb
        · rw [List.foldl_cons, hrest.2 hnone, ← heq]
          simp
        · exact absurd hb (hnone b)
      · intro hall
        exact absurd List.mem_cons_self (hall p.2)
    · have hget : (t.insert p.1 (f (t[p.1]?.getD []) p.2))[k]? = t[k]? := by
        rw [ExtTreeMap.getElem?_insert, if_neg fun heq => hk (LawfulEqCmp.eq_of_compare heq)]
      rw [hget] at hrest
      constructor
      · intro b hb
        rcases List.mem_cons.mp hb with heq | hb
        · exact absurd (congrArg Prod.fst heq).symm hk
        · exact hrest.1 b hb
      · intro hall
        exact hrest.2 fun b hb => hall b (List.mem_cons_of_mem p hb)

omit [TransCmp cmp] [LawfulEqCmp cmp] in
theorem getElem?_foldl_insertIfNew {β : Type*} {ps : List (κ × β)} (t : ExtTreeMap κ β cmpκ)
    (h : ps.Pairwise fun p q => p.1 ≠ q.1) (k : κ) (b : β) :
    (ps.foldl (fun t p => t.insertIfNew p.1 p.2) t)[k]? = some b ↔
      t[k]? = some b ∨ t[k]? = none ∧ (k, b) ∈ ps := by
  induction ps generalizing t with
  | nil => simp
  | cons p ps ih =>
    obtain ⟨hp, hps⟩ := List.pairwise_cons.mp h
    rw [List.foldl_cons, ih _ hps, ExtTreeMap.getElem?_insertIfNew]
    by_cases hk : p.1 = k
    · subst hk
      have hnone : ∀ b, (p.1, b) ∉ ps := fun b hb => hp (p.1, b) hb rfl
      cases ht : t[p.1]? with
      | none =>
        simp only [ExtTreeMap.mem_iff_isSome_getElem?, ht, hnone, Prod.ext_iff, List.mem_cons,
          ReflCmp.compare_self, Option.isSome_none, Bool.false_eq_true, not_false_eq_true, and_true,
          if_true, Option.some.injEq, reduceCtorEq, or_false, false_or, true_and, false_and]
        exact eq_comm
      | some c => simp [ExtTreeMap.mem_iff_isSome_getElem?, ht]
    · have hne : ¬(cmpκ p.1 k = .eq ∧ p.1 ∉ t) := fun hand =>
        hk (LawfulEqCmp.eq_of_compare hand.1)
      have hne' : (k, b) ≠ p := fun heq => hk (congrArg Prod.fst heq).symm
      rw [if_neg hne, List.mem_cons, or_iff_right hne']

omit [LawfulEqCmp cmp] in
/-- Tables without empty lists are the same. -/
theorem Lists.eq (h : Lists cmp t holds) (h' : Lists cmp t' holds) (hne : ∀ k : κ, t[k]? ≠ some [])
    (hne' : ∀ k : κ, t'[k]? ≠ some []) : t = t' := by
  refine ExtTreeMap.ext_getElem? fun k => ?_
  have hget := h.getD_eq h' k
  have hk := hne k
  have hk' := hne' k
  cases ht : t[k]? with
  | none =>
    rw [ht] at hget
    cases ht' : t'[k]? with
    | none => rfl
    | some l' =>
      rw [ht'] at hget hk'
      exact absurd (congrArg some hget.symm) hk'
  | some l =>
    rw [ht] at hget hk
    cases ht' : t'[k]? with
    | none =>
      rw [ht'] at hget
      exact absurd (congrArg some hget) hk
    | some l' =>
      rw [ht'] at hget
      exact congrArg some hget

end SortedLists
