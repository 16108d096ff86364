import Mathlib

/-! Doubly linked lists over any addresses: what the links of a list say, and how they change
when an element is taken out or put in. -/

namespace Linked

variable {α : Type*}

/-- Where each element points to. -/
structure Links (α : Type*) where
  next : α → Option α
  prev : α → Option α

/-- Two neighbours point at each other. -/
def Joined (s : Links α) (x y : α) : Prop :=
  s.next x = some y ∧ s.prev y = some x

/-- The links are those of a list, from its first element to its last. -/
structure Whole (s : Links α) (l : List α) : Prop where
  chain : l.IsChain (Joined s)
  first : ∀ x ∈ l.head?, s.prev x = none
  last : ∀ x ∈ l.getLast?, s.next x = none

theorem Whole.next_eq {s : Links α} {A B : List α} {x y : α} (h : Whole s (A ++ x :: y :: B)) :
    s.next x = some y := by
  have hchain := h.chain
  rw [List.isChain_append_cons_cons] at hchain
  exact hchain.2.1.1

theorem Whole.prev_eq {s : Links α} {A B : List α} {x y : α} (h : Whole s (A ++ x :: y :: B)) :
    s.prev y = some x := by
  have hchain := h.chain
  rw [List.isChain_append_cons_cons] at hchain
  exact hchain.2.1.2

theorem Whole.prev_append {s : Links α} {A B : List α} {x : α} (h : Whole s (A ++ x :: B)) :
    s.prev x = A.getLast? := by
  induction A using List.reverseRecOn with
  | nil => exact h.first x rfl
  | append_singleton A a =>
    rw [List.append_assoc, List.singleton_append] at h
    rw [h.prev_eq, List.getLast?_concat]

theorem Whole.next_append {s : Links α} {A B : List α} {x : α} (h : Whole s (A ++ x :: B)) :
    s.next x = B.head? := by
  cases B with
  | nil => exact h.last x List.getLast?_concat
  | cons y B => exact h.next_eq

theorem Whole.congr {s s' : Links α} {l : List α} (h : Whole s l)
    (hlinks : ∀ x ∈ l, s'.next x = s.next x ∧ s'.prev x = s.prev x) : Whole s' l := by
  constructor
  · refine h.chain.imp_of_mem_imp ?_
    intro x y hx hy hjoined
    exact ⟨(hlinks x hx).1.trans hjoined.1, (hlinks y hy).2.trans hjoined.2⟩
  · intro x hx
    rw [(hlinks x (List.mem_of_mem_head? hx)).2]
    exact h.first x hx
  · intro x hx
    rw [(hlinks x (List.mem_of_getLast? hx)).1]
    exact h.last x hx

section Changes

variable [DecidableEq α]

/-- `x` and `y` become neighbours, or `y` becomes the first element. -/
def join (s : Links α) (x : Option α) (y : α) : Links α :=
  match x with
  | some x => ⟨Function.update s.next x (some y), Function.update s.prev y (some x)⟩
  | none => ⟨s.next, Function.update s.prev y none⟩

variable {s : Links α} {l A B : List α} {x y : α} {o : Option α}

theorem next_join (a : α) : (join s o y).next a = if o = some a then some y else s.next a := by
  cases o with
  | none => simp [join]
  | some x =>
    by_cases ha : a = x
    · simp [join, ha]
    · simp [join, ha, Ne.symm ha]

theorem prev_join (b : α) : (join s o y).prev b = if b = y then o else s.prev b := by
  cases o <;> by_cases hb : b = y <;> simp [join, hb]

theorem joined_join {a b : α} (ha : o ≠ some a) (hb : b ≠ y) (h : Joined s a b) :
    Joined (join s o y) a b := by
  simpa [Joined, next_join, prev_join, ha, hb] using h

theorem join_joined : Joined (join s (some x) y) x y := by
  simp [Joined, next_join, prev_join]

/-- A part of the list that is joined at its ends only stays linked. -/
theorem isChain_join (h : l.IsChain (Joined s)) (ho : ∀ a ∈ o, a ∉ l.dropLast) (hy : y ∉ l.tail) :
    l.IsChain (Joined (join s o y)) := by
  induction l with
  | nil => exact .nil
  | cons a l ih =>
    cases l with
    | nil => exact .singleton a
    | cons b l =>
      rw [List.isChain_cons_cons] at h ⊢
      have hoa : o ≠ some a := by
        intro he
        exact ho a he (by simp)
      have hby : b ≠ y := by
        rintro rfl
        exact hy (by simp)
      refine ⟨joined_join hoa hby h.1, ih h.2 ?_ ?_⟩
      · intro c hc hmem
        exact ho c hc (by simp [hmem])
      · intro hmem
        exact hy (by simpa using Or.inr hmem)

theorem isChain_append_join (hA : A.IsChain (Joined s)) (hB : (y :: B).IsChain (Joined s))
    (h : (A ++ y :: B).Nodup) : (A ++ y :: B).IsChain (Joined (join s A.getLast? y)) := by
  rw [List.nodup_append] at h
  obtain ⟨hnodupA, hnodupB, hdisjoint⟩ := h
  rw [List.isChain_append]
  refine ⟨isChain_join hA ?_ ?_, isChain_join hB ?_ ?_, ?_⟩
  · intro a ha hmem
    have hne : A ≠ [] := by
      rintro rfl
      cases ha
    rw [← List.dropLast_append_getLast hne, List.nodup_append] at hnodupA
    rw [List.getLast?_eq_getLast_of_ne_nil hne] at ha
    exact hnodupA.2.2 a hmem (A.getLast hne) (List.mem_singleton_self _) (Option.some.inj ha).symm
  · intro hmem
    exact hdisjoint y (List.mem_of_mem_tail hmem) y List.mem_cons_self rfl
  · intro a ha hmem
    exact hdisjoint a (List.mem_of_getLast? ha) a (List.mem_of_mem_dropLast hmem) rfl
  · exact (List.nodup_cons.mp hnodupB).1
  · intro a ha b hb
    obtain rfl : y = b := by simpa using hb
    rw [ha]
    exact join_joined

theorem Whole.erase (h : Whole s (A ++ x :: y :: B)) (hnodup : (A ++ x :: y :: B).Nodup) :
    Whole (join s (s.prev x) y) (A ++ y :: B) := by
  have hrest : (A ++ y :: B).Nodup := hnodup.sublist (by simp)
  have hchain := h.chain
  rw [List.isChain_append, List.isChain_cons_cons] at hchain
  rw [h.prev_append]
  refine ⟨isChain_append_join hchain.1 hchain.2.1.2 hrest, ?_, ?_⟩
  · intro z hz
    rw [prev_join]
    cases A with
    | nil =>
      obtain rfl : y = z := by simpa using hz
      simp
    | cons a A =>
      obtain rfl : a = z := by simpa using hz
      have hne : a ≠ y := by
        rintro rfl
        simp at hrest
      rw [if_neg hne]
      exact h.first a rfl
  · intro z hz
    have hmem : z ∈ (y :: B).getLast? := by simpa [List.getLast?_append] using hz
    have hne : A.getLast? ≠ some z := by
      intro he
      have hdisjoint := (List.nodup_append.mp hrest).2.2
      exact hdisjoint z (List.mem_of_getLast? he) z (List.mem_of_getLast? hmem) rfl
    rw [next_join, if_neg hne]
    apply h.last
    simpa [List.getLast?_append] using hz

theorem Whole.insert (h : Whole s (A ++ y :: B)) (hnodup : (A ++ x :: y :: B).Nodup) :
    Whole (join (join s (some x) y) (s.prev y) x) (A ++ x :: y :: B) := by
  have hchain := h.chain
  rw [List.isChain_append] at hchain
  have hx : x ∉ A ++ y :: B := by
    rw [List.nodup_middle] at hnodup
    exact (List.nodup_cons.mp hnodup).1
  have hy : y ∉ A ++ B := by
    have hrest : (A ++ y :: B).Nodup := hnodup.sublist (by simp)
    rw [List.nodup_middle] at hrest
    exact (List.nodup_cons.mp hrest).1
  simp only [List.mem_append, List.mem_cons, not_or] at hx hy
  rw [h.prev_append]
  refine ⟨isChain_append_join ?_ ?_ hnodup, ?_, ?_⟩
  · apply isChain_join hchain.1
    · rintro _ ⟨⟩ hmem
      exact hx.1 (List.mem_of_mem_dropLast hmem)
    · intro hmem
      exact hy.1 (List.mem_of_mem_tail hmem)
  · rw [List.isChain_cons_cons]
    refine ⟨join_joined, isChain_join hchain.2.1 ?_ hy.2⟩
    rintro _ ⟨⟩ hmem
    have hmem := List.mem_of_mem_dropLast hmem
    simp only [List.mem_cons] at hmem
    rcases hmem with hxy | hxB
    · exact hx.2.1 hxy
    · exact hx.2.2 hxB
  · intro z hz
    rw [prev_join, prev_join]
    cases A with
    | nil =>
      obtain rfl : x = z := by simpa using hz
      simp
    | cons a A =>
      obtain rfl : a = z := by simpa using hz
      have hax : a ≠ x := by
        rintro rfl
        simp at hx
      have hay : a ≠ y := by
        rintro rfl
        simp at hy
      rw [if_neg hax, if_neg hay]
      exact h.first a rfl
  · intro z hz
    have hlast : z ∈ (y :: B).getLast? := by simpa [List.getLast?_append] using hz
    have hmem : z ∈ y :: B := List.mem_of_getLast? hlast
    have hzx : some x ≠ some z := by
      intro he
      obtain rfl := Option.some.inj he
      rcases List.mem_cons.mp hmem with hxy | hxB
      · exact hx.2.1 hxy
      · exact hx.2.2 hxB
    have hzA : A.getLast? ≠ some z := by
      intro he
      have hrest : (A ++ y :: B).Nodup := hnodup.sublist (by simp)
      exact (List.nodup_append.mp hrest).2.2 z (List.mem_of_getLast? he) z hmem rfl
    rw [next_join, if_neg hzA, next_join, if_neg hzx]
    apply h.last
    simpa [List.getLast?_append] using hlast

end Changes

/-! ### Indices -/

theorem Whole.next_getElem? {s : Links α} {l : List α} {i : Nat} {x : α} (h : Whole s l)
    (hx : l[i]? = some x) : s.next x = l[i + 1]? := by
  obtain ⟨hi, rfl⟩ := List.getElem?_eq_some_iff.mp hx
  have hsplit : l = l.take i ++ l[i] :: l.drop (i + 1) := by simp
  rw [hsplit] at h
  rw [h.next_append, List.head?_drop]

theorem Whole.prev_getElem? {s : Links α} {l : List α} {i : Nat} {x : α} (h : Whole s l)
    (hx : l[i + 1]? = some x) : s.prev x = l[i]? := by
  obtain ⟨hi, rfl⟩ := List.getElem?_eq_some_iff.mp hx
  have hsplit : l = l.take (i + 1) ++ l[i + 1] :: l.drop (i + 2) := by simp
  rw [hsplit] at h
  have hi' : i < l.length := by omega
  rw [h.prev_append, List.getLast?_take]
  simp [List.getElem?_eq_getElem hi']

/-! ### Numbers -/

/-- The elements are numbered one after the other. -/
def Numbered (pos : α → Option Int) : Int → List α → Prop
  | _, [] => True
  | k, x :: l => pos x = some k ∧ Numbered pos (k + 1) l

variable {pos pos' : α → Option Int} {k d : Int} {l A B : List α}

theorem numbered_append :
    Numbered pos k (A ++ B) ↔ Numbered pos k A ∧ Numbered pos (k + A.length) B := by
  induction A generalizing k with
  | nil => simp [Numbered]
  | cons a A ih =>
    have hk : k + 1 + (A.length : Int) = k + ((a :: A).length : Nat) := by
      simp only [List.length_cons]
      omega
    rw [List.cons_append, Numbered, Numbered, ih, hk, and_assoc]

theorem Numbered.shift (h : Numbered pos k l) (hpos : ∀ x ∈ l, pos' x = (pos x).map (· + d)) :
    Numbered pos' (k + d) l := by
  induction l generalizing k with
  | nil => trivial
  | cons x l ih =>
    rw [List.forall_mem_cons] at hpos
    have hrest := ih h.2 hpos.2
    rw [show k + 1 + d = k + d + 1 by omega] at hrest
    exact ⟨by rw [hpos.1, h.1]; rfl, hrest⟩

theorem Numbered.congr (h : Numbered pos k l) (hpos : ∀ x ∈ l, pos' x = pos x) :
    Numbered pos' k l := by
  have hshift : Numbered pos' (k + 0) l := h.shift fun x hx => by simp [hpos x hx]
  rwa [Int.add_zero] at hshift

theorem Numbered.getElem? {i : Nat} {x : α} (h : Numbered pos k l) (hx : l[i]? = some x) :
    pos x = some (k + i) := by
  induction l generalizing k i with
  | nil => simp at hx
  | cons y l ih =>
    cases i with
    | zero =>
      obtain rfl : y = x := by simpa using hx
      simpa using h.1
    | succ i =>
      rw [ih h.2 (by simpa using hx)]
      congr 1
      push_cast
      omega

theorem Numbered.isSome (h : Numbered pos k l) {x : α} (hx : x ∈ l) : (pos x).isSome := by
  obtain ⟨i, hi⟩ := List.mem_iff_getElem?.mp hx
  rw [h.getElem? hi]
  rfl

end Linked
