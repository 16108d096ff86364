import Mathlib

/-! A sufficient part of what is seen is chosen while it is seen, in any order: the oldest
elements whose sizes come to what is needed. -/

namespace Selection

variable {α τ : Type*} [LinearOrder τ] (time : α → τ) (size : α → Nat) (needed : Int)

/-- The newest elements leave as long as an older one makes up for them. -/
def drop (adding : α) : List α → Int → List α × Int
  | [], total => ([], total)
  | first :: chosen, total =>
    if time adding ≤ time first ∧ size first ≤ total + size adding - needed then
      drop adding chosen (total - size first)
    else (first :: chosen, total)

def visit (r : α → α → Prop) [DecidableRel r] (s : List α × Int) (x : α) : List α × Int :=
  if s.2 < needed ∨ ∃ first ∈ s.1.head?, time x < time first then
    let t := drop time size needed x s.1 s.2
    (t.1.orderedInsert r x, t.2 + size x)
  else s

def sizes (l : List α) : Int := (l.map fun x => (size x : Int)).sum

@[simp] theorem sizes_nil : sizes size [] = 0 := rfl

@[simp] theorem sizes_cons (x : α) (l : List α) :
    sizes size (x :: l) = size x + sizes size l := by
  simp [sizes]

@[simp] theorem sizes_append (l l' : List α) :
    sizes size (l ++ l') = sizes size l + sizes size l' := by
  simp [sizes]

theorem sizes_perm {l l' : List α} (h : l.Perm l') : sizes size l = sizes size l' :=
  (h.map _).sum_eq

theorem sizes_nonneg (l : List α) : 0 ≤ sizes size l := by
  induction l with
  | nil => simp
  | cons x l ih =>
    rw [sizes_cons]
    omega

/-- What leaves is a beginning of the list, of elements that are not older. -/
theorem drop_spec (adding : α) (l : List α) (total : Int) :
    ∃ dropped rest, l = dropped ++ rest ∧
      drop time size needed adding l total = (rest, total - sizes size dropped) ∧
      (∀ x ∈ dropped, time adding ≤ time x) ∧
      (dropped ≠ [] → needed ≤ total - sizes size dropped + size adding) ∧
      ∀ first ∈ rest.head?, time adding ≤ time first →
        total - sizes size dropped + size adding - size first < needed := by
  induction l generalizing total with
  | nil => exact ⟨[], [], rfl, by simp [drop], by simp, by simp, by simp⟩
  | cons y l ih =>
    rw [drop]
    split
    · next hdrop =>
      obtain ⟨dropped, rest, hl, heq, hold, henough, htight⟩ := ih (total - size y)
      refine ⟨y :: dropped, rest, by rw [hl]; rfl, ?_, ?_, fun _ => ?_, fun first hf hle => ?_⟩
      · rw [heq, sizes_cons]
        congr 1
        omega
      · intro x hx
        rcases List.mem_cons.mp hx with rfl | hx
        · exact hdrop.1
        · exact hold x hx
      · rw [sizes_cons]
        by_cases hd : dropped = []
        · rw [hd, sizes_nil]
          omega
        · have := henough hd
          omega
      · have := htight first hf hle
        rw [sizes_cons]
        omega
    · next hkeep =>
      refine ⟨[], y :: l, rfl, by simp, by simp, fun h => absurd rfl h, fun first hf hle => ?_⟩
      cases hf
      rw [sizes_nil]
      have hsize : ¬(size y ≤ total + size adding - needed) := fun hs => hkeep ⟨hle, hs⟩
      omega

/-- The chosen elements and those left out are what was seen; nothing is left out before
enough is chosen. -/
structure Parts (seen : List α) (s : List α × Int) (left : List α) : Prop where
  perm : (s.1 ++ left).Perm seen
  total : s.2 = sizes size s.1
  enough : left ≠ [] → needed ≤ s.2

/-- The newest of the chosen is first, nothing left out is older, and the chosen do not suffice
without the first. -/
structure Oldest (s : List α × Int) (left : List α) : Prop where
  sorted : s.1.Pairwise fun a b => time b ≤ time a
  older : ∀ x ∈ s.1, ∀ y ∈ left, time x ≤ time y
  tight : ∀ first ∈ s.1.head?, s.2 - size first < needed

variable {size needed}

theorem Parts.empty : Parts size needed [] ([], 0) [] :=
  ⟨List.Perm.refl _, rfl, fun h => absurd rfl h⟩

variable {time} in
theorem Oldest.empty : Oldest time size needed ([], 0) [] :=
  ⟨List.Pairwise.nil, by simp, by simp⟩

variable (r : α → α → Prop) [DecidableRel r] {seen left : List α} {s : List α × Int}

/-- The parts after one more element, in the same way whatever order the chosen are kept in. -/
theorem visit_cases (hs : Parts size needed seen s left) (x : α) :
    (visit time size needed r s x = s ∧ Parts size needed (seen ++ [x]) s (x :: left) ∧
      needed ≤ s.2 ∧ ∀ first ∈ s.1.head?, time first ≤ time x) ∨
    ∃ dropped rest, s.1 = dropped ++ rest ∧
      (s.2 < needed ∨ ∃ first ∈ s.1.head?, time x < time first) ∧
      visit time size needed r s x =
        (rest.orderedInsert r x, s.2 - sizes size dropped + size x) ∧
      Parts size needed (seen ++ [x]) (visit time size needed r s x) (dropped ++ left) ∧
      (∀ y ∈ dropped, time x ≤ time y) ∧
      ∀ first ∈ rest.head?, time x ≤ time first →
        s.2 - sizes size dropped + size x - size first < needed := by
  by_cases hadd : s.2 < needed ∨ ∃ first ∈ s.1.head?, time x < time first
  · obtain ⟨dropped, rest, hl, heq, hold, henough, htight⟩ :=
      drop_spec time size needed x s.1 s.2
    have hvisit : visit time size needed r s x =
        (rest.orderedInsert r x, s.2 - sizes size dropped + size x) := by
      rw [visit, if_pos hadd, heq]
    refine .inr ⟨dropped, rest, hl, hadd, hvisit, ?_, hold, htight⟩
    rw [hvisit]
    refine ⟨?_, ?_, fun hleft => ?_⟩
    · have hperm := hs.perm
      rw [hl] at hperm
      calc (rest.orderedInsert r x ++ (dropped ++ left)).Perm (x :: rest ++ (dropped ++ left)) :=
            (List.perm_orderedInsert r x rest).append_right _
        _ = x :: ((rest ++ dropped) ++ left) := by simp
        List.Perm _ (x :: ((dropped ++ rest) ++ left)) :=
          (List.perm_append_comm.append_right _).cons x
        List.Perm _ (x :: seen) := hperm.cons x
        List.Perm _ (seen ++ [x]) := (List.perm_append_singleton x seen).symm
    · have hsum := hs.total
      rw [hl, sizes_append] at hsum
      rw [sizes_perm size (List.perm_orderedInsert r x rest), sizes_cons]
      omega
    · by_cases hd : dropped = []
      · have := hs.enough (by simpa [hd] using hleft)
        rw [hd, sizes_nil]
        omega
      · exact henough hd
  · simp only [not_or, not_lt, not_exists, not_and] at hadd
    refine .inl ⟨?_, ⟨?_, hs.total, fun _ => hadd.1⟩, hadd.1, hadd.2⟩
    · rw [visit, if_neg]
      simpa only [not_or, not_lt, not_exists, not_and] using hadd
    · calc (s.1 ++ x :: left).Perm (x :: (s.1 ++ left)) := List.perm_middle
        List.Perm _ (x :: seen) := hs.perm.cons x
        List.Perm _ (seen ++ [x]) := (List.perm_append_singleton x seen).symm

theorem Parts.visit (hs : Parts size needed seen s left) (x : α) :
    ∃ left', Parts size needed (seen ++ [x]) (Selection.visit time size needed r s x) left' := by
  obtain ⟨hvisit, hparts, -⟩ | ⟨dropped, rest, -, -, -, hparts, -⟩ :=
    visit_cases time r hs x
  · exact ⟨_, hvisit ▸ hparts⟩
  · exact ⟨_, hparts⟩

theorem Parts.foldl_visit (hs : Parts size needed seen s left) (l : List α) :
    ∃ left', Parts size needed (seen ++ l) (l.foldl (Selection.visit time size needed r) s) left' := by
  induction l generalizing seen s left with
  | nil => exact ⟨left, by simpa using hs⟩
  | cons x l ih =>
    obtain ⟨left', hs'⟩ := hs.visit time r x
    simpa using ih hs'

variable {time r}

theorem head_orderedInsert {x first : α} {rest : List α}
    (h : first ∈ (rest.orderedInsert r x).head?) :
    (first = x ∧ ∀ y ∈ rest.head?, r x y) ∨ (first ∈ rest.head? ∧ ¬r x first) := by
  cases rest with
  | nil => simpa [eq_comm] using h
  | cons y rest =>
    rw [List.orderedInsert_cons] at h
    split at h
    · next hr => exact .inl ⟨by simpa [eq_comm] using h, by simpa using hr⟩
    · next hr =>
      obtain rfl : y = first := by simpa using h
      exact .inr ⟨by simp, hr⟩

theorem sorted_orderedInsert {x : α} {l : List α} (hr : ∀ y ∈ l, r x y ↔ time y < time x)
    (hl : l.Pairwise fun a b => time b ≤ time a) :
    (l.orderedInsert r x).Pairwise fun a b => time b ≤ time a := by
  induction l with
  | nil => exact List.pairwise_singleton _ _
  | cons y l ih =>
    obtain ⟨hy, hl'⟩ := List.pairwise_cons.mp hl
    rw [List.orderedInsert_cons]
    split
    · next hxy =>
      have hlt := (hr y List.mem_cons_self).mp hxy
      refine List.pairwise_cons.mpr ⟨fun z hz => ?_, hl⟩
      rcases List.mem_cons.mp hz with rfl | hz
      · exact hlt.le
      · exact (hy z hz).trans hlt.le
    · next hxy =>
      have hle : time x ≤ time y := by
        by_contra hlt
        exact hxy ((hr y List.mem_cons_self).mpr (not_le.mp hlt))
      refine List.pairwise_cons.mpr ⟨fun z hz => ?_, ih (fun z hz => hr z (.tail _ hz)) hl'⟩
      rcases (List.mem_orderedInsert r).mp hz with rfl | hz
      · exact hle
      · exact hy z hz

/-- With the newest first, an element that stays out is not older than the first, and one that
comes in makes up for all that leave. -/
theorem Oldest.visit (hs : Parts size needed seen s left)
    (ho : Oldest time size needed s left) {x : α}
    (hr : ∀ y ∈ s.1, r x y ↔ time y < time x) :
    ∃ left', Parts size needed (seen ++ [x]) (Selection.visit time size needed r s x) left' ∧
      Oldest time size needed (Selection.visit time size needed r s x) left' := by
  obtain ⟨hvisit, hparts, hge, hfirst⟩ | ⟨dropped, rest, hl, hadd, hvisit, hparts, hold, htight⟩ :=
    visit_cases time r hs x
  · rw [hvisit]
    refine ⟨_, hparts, ho.sorted, fun y hy z hz => ?_, ho.tight⟩
    rcases List.mem_cons.mp hz with rfl | hz
    · cases hc : s.1 with
      | nil => simp [hc] at hy
      | cons first chosen =>
        have hle := hfirst first (by simp [hc])
        rw [hc] at hy
        rcases List.mem_cons.mp hy with rfl | hy
        · exact hle
        · exact ((List.pairwise_cons.mp (hc ▸ ho.sorted)).1 y hy).trans hle
    · exact ho.older y hy z hz
  · refine ⟨_, hparts, ?_⟩
    have hsorted := ho.sorted
    rw [hl, List.pairwise_append] at hsorted
    have hmem : ∀ y ∈ rest, y ∈ s.1 := fun y hy => hl ▸ List.mem_append_right _ hy
    rw [hvisit]
    refine ⟨sorted_orderedInsert (fun y hy => hr y (hmem y hy)) hsorted.2.1,
      fun y hy z hz => ?_, fun first hf => ?_⟩
    · rcases (List.mem_orderedInsert r).mp hy with rfl | hy <;>
        rcases List.mem_append.mp hz with hz | hz
      · exact hold z hz
      · -- something is left out, so that enough was chosen and the new one is older
        have henough := hs.enough (List.ne_nil_of_mem hz)
        obtain hlt | ⟨first, hf, hlt⟩ := hadd
        · omega
        · exact hlt.le.trans (ho.older first (List.mem_of_mem_head? hf) z hz)
      · exact hsorted.2.2 z hz y hy
      · exact ho.older y (hmem y hy) z hz
    · obtain ⟨rfl, hnew⟩ | ⟨hf, hnot⟩ := head_orderedInsert hf
      · cases dropped with
        | nil =>
          obtain hlt | ⟨first, hf, hlt⟩ := hadd
          · simpa using hlt
          · have hmem := List.mem_of_mem_head? hf
            rw [hl] at hf
            have := (hr first hmem).mp (hnew first hf)
            exact absurd this hlt.not_gt
        | cons y dropped =>
          have ht := ho.tight y (by simp [hl])
          have := sizes_nonneg size dropped
          simp only [sizes_cons]
          omega
      · refine htight first hf ?_
        by_contra hlt
        exact hnot ((hr first (hmem first (List.mem_of_mem_head? hf))).mpr (not_le.mp hlt))

theorem Oldest.foldl_visit (hs : Parts size needed seen s left)
    (ho : Oldest time size needed s left) (l : List α)
    (hr : ∀ x ∈ seen ++ l, ∀ y ∈ seen ++ l, r x y ↔ time y < time x) :
    ∃ left', Parts size needed (seen ++ l) (l.foldl (Selection.visit time size needed r) s) left' ∧
      Oldest time size needed (l.foldl (Selection.visit time size needed r) s) left' := by
  induction l generalizing seen s left with
  | nil => exact ⟨left, by simpa using hs, ho⟩
  | cons x l ih =>
    obtain ⟨left', hs', ho'⟩ := ho.visit (r := r) hs (x := x) fun y hy =>
      hr x (by simp) y (List.mem_append_left _ (hs.perm.subset (List.mem_append_left _ hy)))
    simpa using ih hs' ho' (by simpa using hr)

end Selection
