import Mathlib

/-! Sets that are kept as increasing lists, with the index of each element. -/

namespace OrderedSets

structure OrderedSet (α : Type*) [LinearOrder α] where
  items : List α
  sorted : items.Pairwise (· < ·)

variable {α : Type*} [LinearOrder α] {s t : OrderedSet α} {a b : α} {i : Nat}

namespace OrderedSet

instance : Membership α (OrderedSet α) := ⟨fun s a => a ∈ s.items⟩

instance : DecidableEq (OrderedSet α) := fun s t =>
  decidable_of_iff (s.items = t.items) (by cases s; cases t; simp)

def empty : OrderedSet α := ⟨[], .nil⟩

theorem sorted_insertionSort_dedup (l : List α) :
    (l.dedup.insertionSort (· ≤ ·)).Pairwise (· < ·) := by
  have hle := List.pairwise_insertionSort (· ≤ ·) l.dedup
  have hne : (l.dedup.insertionSort (· ≤ ·)).Nodup :=
    (List.perm_insertionSort _ _).nodup_iff.mpr l.nodup_dedup
  exact hle.imp₂ (fun _ _ hab hne => lt_of_le_of_ne hab hne) hne

def ofList (l : List α) : OrderedSet α :=
  ⟨l.dedup.insertionSort (· ≤ ·), sorted_insertionSort_dedup l⟩

def merge (s : OrderedSet α) (l : List α) : OrderedSet α := ofList (s.items ++ l)

def remove (s : OrderedSet α) (a : α) : OrderedSet α :=
  ⟨s.items.filter (· ≠ a), s.sorted.filter _⟩

def take (s : OrderedSet α) (n : Nat) : OrderedSet α := ⟨s.items.take n, s.sorted.take⟩

def drop (s : OrderedSet α) (n : Nat) : OrderedSet α := ⟨s.items.drop n, s.sorted.drop⟩

def size (s : OrderedSet α) : Nat := s.items.length

def indexOf (s : OrderedSet α) (a : α) : Option Nat := s.items.idxOf? a

/-- How many elements are less. -/
def lowerBound (s : OrderedSet α) (a : α) : Nat := (s.items.takeWhile (· < a)).length

theorem mem_def : a ∈ s ↔ a ∈ s.items := Iff.rfl

@[simp]
theorem mem_ofList {l : List α} : a ∈ ofList l ↔ a ∈ l := by
  rw [mem_def, ofList, List.mem_insertionSort, List.mem_dedup]

@[simp]
theorem mem_merge {l : List α} : a ∈ s.merge l ↔ a ∈ s ∨ a ∈ l := by
  rw [merge, mem_ofList, List.mem_append, mem_def]

@[simp]
theorem mem_remove : a ∈ s.remove b ↔ a ∈ s ∧ a ≠ b := by
  rw [mem_def, remove, List.mem_filter, mem_def]
  simp

theorem nodup (s : OrderedSet α) : s.items.Nodup := s.sorted.imp fun h => ne_of_lt h

/-- A set is known by its elements. -/
theorem ext_mem (h : ∀ a, a ∈ s ↔ a ∈ t) : s = t := by
  have hperm : s.items.Perm t.items := (List.perm_ext_iff_of_nodup s.nodup t.nodup).mpr h
  have heq : s.items = t.items :=
    hperm.eq_of_pairwise (fun a b _ _ hab hba => absurd hba hab.not_gt) s.sorted t.sorted
  cases s
  cases t
  cases heq
  rfl

theorem indexOf_eq_some_iff : s.indexOf a = some i ↔ s.items[i]? = some a := by
  rw [indexOf, List.idxOf?_eq_some_iff, List.getElem?_eq_some_iff]
  constructor
  · rintro ⟨hi, ha, -⟩
    exact ⟨hi, ha⟩
  · rintro ⟨hi, ha⟩
    refine ⟨hi, ha, fun j hj heq => ?_⟩
    have hlt := List.pairwise_iff_getElem.mp s.sorted j i (hj.trans hi) hi hj
    rw [ha, heq] at hlt
    exact lt_irrefl _ hlt

/-- The first element that is not less than `a`. -/
theorem le_of_find? (h : s.items.find? (a ≤ ·) = some b) {c : α} (hc : c ∈ s) (hac : a ≤ c) :
    b ≤ c := by
  obtain ⟨-, before, after, hitems, hbefore⟩ := List.find?_eq_some_iff_append.mp h
  have hsorted := s.sorted
  rw [hitems, List.pairwise_append, List.pairwise_cons] at hsorted
  rw [mem_def, hitems, List.mem_append, List.mem_cons] at hc
  rcases hc with hc | rfl | hc
  · exact absurd hac (by simpa using hbefore c hc)
  · exact le_rfl
  · exact (hsorted.2.1.1 c hc).le

theorem le_getLast? (h : s.items.getLast? = some b) {c : α} (hc : c ∈ s) : c ≤ b := by
  obtain ⟨before, hitems⟩ := List.getLast?_eq_some_iff.mp h
  have hsorted := s.sorted
  rw [hitems, List.pairwise_append] at hsorted
  rw [mem_def, hitems, List.mem_append, List.mem_singleton] at hc
  rcases hc with hc | rfl
  · exact (hsorted.2.2 c hc b List.mem_cons_self).le
  · exact le_rfl

theorem size_remove (h : a ∈ s) : (s.remove a).size + 1 = s.size := by
  have herase : s.items.filter (· ≠ a) = s.items.erase a := by
    rw [s.nodup.erase_eq_filter]
    exact List.filter_congr fun b _ => by by_cases hb : b = a <;> simp [hb]
  have hlength := List.length_erase_add_one h
  rw [← herase] at hlength
  exact hlength

theorem size_merge_singleton (h : a ∉ s) : (s.merge [a]).size = s.size + 1 := by
  have hremove : (s.merge [a]).remove a = s := ext_mem fun b => by
    rw [mem_remove, mem_merge, List.mem_singleton]
    constructor
    · rintro ⟨hb | hb, hne⟩
      · exact hb
      · exact absurd hb hne
    · exact fun hb => ⟨.inl hb, fun heq => h (heq ▸ hb)⟩
  have hsize := size_remove (mem_merge.mpr (.inr List.mem_cons_self) : a ∈ s.merge [a])
  rw [← hsize, hremove]

theorem size_le (h : ∀ a ∈ s, a ∈ t) : s.size ≤ t.size := (List.subperm_of_subset s.nodup h).length_le

theorem items_merge_empty {l : List α} (h : l.Pairwise (· < ·)) : (empty.merge l).items = l := by
  have heq : empty.merge l = ⟨l, h⟩ := ext_mem fun a => by
    rw [mem_merge]
    exact or_iff_right List.not_mem_nil
  rw [heq]

/-- The elements of an interval stand together. -/
theorem items_between {lo hi : α} (h : ∀ a, a ∈ s ↔ a ∈ t ∧ lo ≤ a ∧ a ≤ hi) :
    ∃ before after, t.items = before ++ s.items ++ after ∧ (∀ a ∈ before, a < lo) ∧
      ∀ a ∈ after, hi < a := by
  have hbefore : ∀ a ∈ t.items.filter (· < lo), a < lo := fun a ha => by
    simpa using (List.mem_filter.mp ha).2
  have hafter : ∀ a ∈ t.items.filter (fun a => lo ≤ a ∧ hi < a), lo ≤ a ∧ hi < a := fun a ha => by
    simpa using (List.mem_filter.mp ha).2
  have hsorted : (t.items.filter (· < lo) ++ s.items ++
      t.items.filter (fun a => lo ≤ a ∧ hi < a)).Pairwise (· < ·) := by
    refine List.pairwise_append.mpr ⟨List.pairwise_append.mpr ⟨t.sorted.filter _, s.sorted, ?_⟩,
      t.sorted.filter _, ?_⟩
    · intro a ha b hb
      exact (hbefore a ha).trans_le ((h b).mp hb).2.1
    · intro a ha b hb
      rcases List.mem_append.mp ha with ha | ha
      · exact (hbefore a ha).trans_le (hafter b hb).1
      · exact ((h a).mp ha).2.2.trans_lt (hafter b hb).2
  refine ⟨t.items.filter (· < lo), t.items.filter (fun a => lo ≤ a ∧ hi < a), ?_, hbefore,
    fun a ha => (hafter a ha).2⟩
  have heq : t = ⟨_, hsorted⟩ := ext_mem fun a => by
    rw [mem_def (s := ⟨_, hsorted⟩), List.mem_append, List.mem_append, List.mem_filter,
      List.mem_filter, ← mem_def, ← mem_def, h, decide_eq_true_eq, decide_eq_true_eq]
    constructor
    · intro ha
      rcases lt_or_ge a lo with hlo | hlo
      · exact .inl (.inl ⟨ha, hlo⟩)
      rcases lt_or_ge hi a with hhi | hhi
      · exact .inr ⟨ha, hlo, hhi⟩
      · exact .inl (.inr ⟨ha, hlo, hhi⟩)
    · rintro ((⟨ha, -⟩ | ⟨ha, -⟩) | ⟨ha, -⟩)
      · exact ha
      · exact ha
      · exact ha
  exact congrArg items heq

theorem lt_of_mem_take (h : b ∈ s.items.take (s.lowerBound a)) : b < a := by
  have htake : s.items.take (s.lowerBound a) = s.items.takeWhile (· < a) :=
    (List.prefix_iff_eq_take.mp (List.takeWhile_prefix _)).symm
  rw [htake] at h
  simpa using List.mem_takeWhile_imp h

theorem le_of_mem_drop (h : b ∈ s.items.drop (s.lowerBound a)) : a ≤ b := by
  have hdrop : s.items.drop (s.lowerBound a) = s.items.dropWhile (· < a) := by
    conv_lhs => rw [← List.takeWhile_append_dropWhile (p := (· < a)) (l := s.items)]
    exact List.drop_left
  rw [hdrop] at h
  have hsorted := s.sorted
  generalize s.items = l at h hsorted
  induction l with
  | nil => exact absurd h List.not_mem_nil
  | cons c l ih =>
    obtain ⟨hc, hl⟩ := List.pairwise_cons.mp hsorted
    by_cases hca : c < a
    · rw [List.dropWhile_cons_of_pos (by simpa using hca)] at h
      exact ih h hl
    · rw [List.dropWhile_cons_of_neg (by simpa using hca)] at h
      rcases List.mem_cons.mp h with rfl | hb
      · exact not_lt.mp hca
      · exact (not_lt.mp hca).trans (hc b hb).le

theorem lowerBound_le : s.lowerBound a ≤ s.items.length := (List.takeWhile_prefix _).length_le

/-- Greater elements come behind those that are less. -/
theorem items_merge_after {before after more : List α} (h : s.items = before ++ after)
    (hmore : ∀ a ∈ before, ∀ b ∈ more, a < b) :
    (s.merge more).items = before ++ (ofList (after ++ more)).items := by
  have hitems := s.sorted
  rw [h, List.pairwise_append] at hitems
  have hsorted : (before ++ (ofList (after ++ more)).items).Pairwise (· < ·) := by
    refine List.pairwise_append.mpr ⟨hitems.1, (ofList (after ++ more)).sorted, fun a ha b hb => ?_⟩
    rcases List.mem_append.mp (mem_ofList.mp hb) with hb | hb
    · exact hitems.2.2 a ha b hb
    · exact hmore a ha b hb
  have heq : s.merge more = ⟨_, hsorted⟩ := ext_mem fun a => by
    rw [mem_merge, mem_def, h, mem_def (s := ⟨_, hsorted⟩), List.mem_append, List.mem_append,
      ← mem_def, mem_ofList, List.mem_append, or_assoc]
  exact congrArg items heq

theorem size_ofList_append_ge {after more : List α} (h : after.Nodup) :
    after.length ≤ (ofList (after ++ more)).size :=
  (List.subperm_of_subset h fun _ ha => mem_ofList.mpr (List.mem_append_left _ ha)).length_le

/-- An element stands behind those that are less. -/
theorem lowerBound_eq {before after : List α} (h : s.items = before ++ a :: after) :
    s.lowerBound a = before.length := by
  have hsorted := s.sorted
  rw [h, List.pairwise_append] at hsorted
  rw [lowerBound, h, List.takeWhile_append_of_pos fun b hb => by
    simpa using hsorted.2.2 b hb a List.mem_cons_self,
    List.takeWhile_cons_of_neg (by simp), List.append_nil]

theorem lowerBound_append {before after : List α} (h : t.items = before ++ s.items ++ after) (ha : a ∈ s) :
    t.lowerBound a = before.length + s.lowerBound a := by
  obtain ⟨left, right, hs⟩ := List.append_of_mem ha
  have ht : t.items = (before ++ left) ++ a :: (right ++ after) := by
    rw [h, hs]
    simp only [List.append_assoc, List.cons_append]
  rw [lowerBound_eq hs, lowerBound_eq ht, List.length_append]

end OrderedSet

end OrderedSets
