import Mathlib

/-! Sets and multisets that are kept sorted (`base/flat_set.h`), and the modification of an element
in its place. -/

namespace TelegramClient.Base

/-- A strict weak order: what is not less in either direction is equal for a set. -/
structure Compare (α : Type*) where
  less : α → α → Bool
  asymm : ∀ {a b}, less a b → less b a = false
  less_or_less : ∀ {a c} b, less a c → less a b ∨ less b c

namespace Compare

variable {α : Type*} (cmp : Compare α) (unique : Bool)

/-- The order of a set, or of a multiset. -/
def inOrder (a b : α) : Bool := if unique then cmp.less a b else !cmp.less b a

def Sorted (l : List α) : Prop := l.Pairwise fun a b => cmp.inOrder unique a b

instance (l : List α) : Decidable (cmp.Sorted unique l) :=
  inferInstanceAs (Decidable (l.Pairwise fun a b => cmp.inOrder unique a b))

/-- The loop to the end: whether the element is erased, what is in its place, and what follows.
`which` stays where it is, whatever it is swapped with. -/
def shiftRight (which : α) : List α → Bool × α × List α
  | [] => (false, which, [])
  | i :: after =>
    if cmp.less i which then
      match shiftRight i after with
      | (erased, place, after) => (erased, place, which :: after)
    else if unique && !cmp.less which i then (true, which, i :: after)
    else (false, which, i :: after)

/-- The loop to the beginning, over the elements before from the last one to the first. -/
def shiftLeft (which : α) : List α → Bool × α × List α
  | [] => (false, which, [])
  | i :: before =>
    if cmp.less which i then
      match shiftLeft i before with
      | (erased, place, before) => (erased, place, which :: before)
    else if unique && !cmp.less i which then (true, which, i :: before)
    else (false, which, i :: before)

/-- The two loops, after the action. -/
def settle (before : List α) (which : α) (after : List α) : List α :=
  match cmp.shiftRight unique which after with
  | (true, _, after) => before.reverse ++ after
  | (false, place, after) =>
    match cmp.shiftLeft unique place before with
    | (true, _, before) => before.reverse ++ after
    | (false, place, before) => before.reverse ++ place :: after

/-- `flat_set::modify`, or `flat_multi_set::modify`, which erases nothing. -/
def modify (l : List α) (which : Nat) (action : α → α) : List α :=
  match l.drop which with
  | [] => l
  | element :: after => cmp.settle unique (l.take which).reverse (action element) after

/-- What a modification should leave: the other elements, and the new one in its place, unless a set
has an equal one. -/
structure Modified (others : List α) (element : α) (result : List α) : Prop where
  sorted : cmp.Sorted unique result
  holds : result.Perm (element :: others) ∨
    unique ∧ (∃ other ∈ others, cmp.less other element = false ∧ cmp.less element other = false) ∧
      result.Perm others

/-- The new element has its place next to the old one: the second neighbours stay where they are. -/
def Near (before after : List α) (element : α) : Prop :=
  (∀ i ∈ after[1]?, cmp.inOrder unique element i) ∧ ∀ i ∈ before[1]?, cmp.inOrder unique i element

variable {cmp unique} {a b c : α} {before after l : List α} {element place : α}

theorem inOrder_set : cmp.inOrder true a b = cmp.less a b := rfl

theorem inOrder_multiset : cmp.inOrder false a b = !cmp.less b a := rfl

theorem shiftRight_cons (which i : α) : cmp.shiftRight unique which (i :: after) =
    if cmp.less i which then
      match cmp.shiftRight unique i after with
      | (erased, place, after) => (erased, place, which :: after)
    else if unique && !cmp.less which i then (true, which, i :: after)
    else (false, which, i :: after) := rfl

theorem shiftLeft_cons (which i : α) : cmp.shiftLeft unique which (i :: before) =
    if cmp.less which i then
      match cmp.shiftLeft unique i before with
      | (erased, place, before) => (erased, place, which :: before)
    else if unique && !cmp.less i which then (true, which, i :: before)
    else (false, which, i :: before) := rfl

theorem settle_eq : cmp.settle unique before element after =
    match cmp.shiftRight unique element after with
    | (true, _, after) => before.reverse ++ after
    | (false, place, after) =>
      match cmp.shiftLeft unique place before with
      | (true, _, before) => before.reverse ++ after
      | (false, place, before) => before.reverse ++ place :: after := rfl

theorem inOrder_of_less (h : cmp.less a b) : cmp.inOrder unique a b := by
  cases unique with
  | true => exact h
  | false =>
    rw [inOrder_multiset, cmp.asymm h]
    rfl

theorem inOrder_trans (hab : cmp.inOrder unique a b) (hbc : cmp.inOrder unique b c) :
    cmp.inOrder unique a c := by
  cases unique with
  | true =>
    rcases cmp.less_or_less c hab with hac | hcb
    · exact hac
    · have hfalse := cmp.asymm hcb
      rw [show cmp.less b c = true from hbc] at hfalse
      cases hfalse
  | false =>
    simp only [inOrder_multiset, Bool.not_eq_true'] at hab hbc ⊢
    by_contra hca
    rcases cmp.less_or_less b (by simpa using hca) with hcb | hba
    · rw [hbc] at hcb
      cases hcb
    · rw [hab] at hba
      cases hba

theorem shiftRight_of_inOrder (h : ∀ i ∈ after.head?, cmp.inOrder unique place i) :
    cmp.shiftRight unique place after = (false, place, after) := by
  cases after with
  | nil => rfl
  | cons i after =>
    have hi := h i rfl
    cases unique with
    | true =>
      have hless : cmp.less place i = true := hi
      simp [shiftRight_cons, hless, cmp.asymm hless]
    | false =>
      have hless : cmp.less i place = false := by simpa [inOrder_multiset] using hi
      simp [shiftRight_cons, hless]

theorem shiftLeft_of_inOrder (h : ∀ i ∈ before.head?, cmp.inOrder unique i place) :
    cmp.shiftLeft unique place before = (false, place, before) := by
  cases before with
  | nil => rfl
  | cons i before =>
    have hi := h i rfl
    cases unique with
    | true =>
      have hless : cmp.less i place = true := hi
      simp [shiftLeft_cons, hless, cmp.asymm hless]
    | false =>
      have hless : cmp.less place i = false := by simpa [inOrder_multiset] using hi
      simp [shiftLeft_cons, hless]

/-- The element is swapped with its neighbour at most: the loop looks at `which`, where the
neighbour is now. -/
theorem shiftRight_of_less {i : α} (hless : cmp.less i place)
    (hsorted : cmp.Sorted unique (i :: after)) :
    cmp.shiftRight unique place (i :: after) = (false, i, place :: after) := by
  rw [shiftRight_cons, if_pos hless, shiftRight_of_inOrder]
  intro j hj
  exact List.rel_of_pairwise_cons hsorted (List.mem_of_mem_head? hj)

theorem shiftLeft_of_less {i : α} (hless : cmp.less place i)
    (hsorted : (i :: before).Pairwise fun a b => cmp.inOrder unique b a) :
    cmp.shiftLeft unique place (i :: before) = (false, i, place :: before) := by
  rw [shiftLeft_cons, if_pos hless, shiftLeft_of_inOrder]
  intro j hj
  exact List.rel_of_pairwise_cons hsorted (List.mem_of_mem_head? hj)

theorem less_of_not_inOrder (h : ¬cmp.inOrder unique a b) (hunique : unique = false) :
    cmp.less b a := by
  subst hunique
  simpa [inOrder_multiset] using h

/-- The neighbours of the old element, and all the other ones. -/
theorem sorted_around {x : α} (h : cmp.Sorted unique (before.reverse ++ x :: after)) :
    cmp.Sorted unique after ∧ (before.Pairwise fun a b => cmp.inOrder unique b a) ∧
      ∀ i ∈ before, ∀ j ∈ after, cmp.inOrder unique i j := by
  obtain ⟨hbefore, hafter, hboth⟩ := List.pairwise_append.mp h
  refine ⟨(List.pairwise_cons.mp hafter).2, List.pairwise_reverse.mp hbefore, fun i hi j hj => ?_⟩
  exact hboth i (List.mem_reverse.mpr hi) j (List.mem_cons_of_mem x hj)

theorem sorted_append (hbefore : before.Pairwise fun a b => cmp.inOrder unique b a)
    (hafter : cmp.Sorted unique after)
    (hboth : ∀ i ∈ before, ∀ j ∈ after, cmp.inOrder unique i j) :
    cmp.Sorted unique (before.reverse ++ after) :=
  List.pairwise_append.mpr ⟨List.pairwise_reverse.mpr hbefore, hafter,
    fun i hi j hj => hboth i (List.mem_reverse.mp hi) j hj⟩

/-- It is enough to look at the first of the elements that follow. -/
theorem inOrder_of_head (hafter : cmp.Sorted unique after)
    (h : ∀ i ∈ after.head?, cmp.inOrder unique a i) : ∀ i ∈ after, cmp.inOrder unique a i := by
  cases after with
  | nil => simp
  | cons first after =>
    intro i hi
    rcases List.mem_cons.mp hi with rfl | hi
    · exact h _ rfl
    · exact inOrder_trans (h first rfl) (List.rel_of_pairwise_cons hafter hi)

theorem inOrder_of_last (hbefore : before.Pairwise fun a b => cmp.inOrder unique b a)
    (h : ∀ i ∈ before.head?, cmp.inOrder unique i a) : ∀ i ∈ before, cmp.inOrder unique i a := by
  cases before with
  | nil => simp
  | cons last before =>
    intro i hi
    rcases List.mem_cons.mp hi with rfl | hi
    · exact h _ rfl
    · exact inOrder_trans (List.rel_of_pairwise_cons hbefore hi) (h last rfl)

/-- An element that collides is erased: nothing else moves. -/
theorem modified_of_erased {other : α} (hunique : unique = true)
    (hsorted : cmp.Sorted unique (before.reverse ++ after))
    (hother : other ∈ before ∨ other ∈ after) (hless : cmp.less other element = false)
    (hless' : cmp.less element other = false) :
    cmp.Modified unique (before.reverse ++ after) element (before.reverse ++ after) where
  sorted := hsorted
  holds := by
    refine Or.inr ⟨hunique, ⟨other, ?_, hless, hless'⟩, .refl _⟩
    rw [List.mem_append, List.mem_reverse]
    exact hother

theorem modified_iff_sorted {result : List α} (hperm : result.Perm (element :: l)) :
    cmp.Modified unique l element result ↔ cmp.Sorted unique result :=
  ⟨fun h => h.sorted, fun h => ⟨h, Or.inl hperm⟩⟩

theorem perm_middle (before after : List α) (element : α) :
    (before.reverse ++ element :: after).Perm (element :: (before.reverse ++ after)) :=
  List.perm_middle

theorem near_of_collision {i : α} (hless : cmp.less i element = false)
    (hless' : cmp.less element i = false)
    (hafter : ∀ j ∈ after[1]?, cmp.less i j) (hbefore : ∀ j ∈ before[1]?, cmp.less j i) :
    cmp.Near unique before after element := by
  constructor
  · intro j hj
    refine inOrder_of_less ((cmp.less_or_less element (hafter j hj)).resolve_left ?_)
    rw [hless]
    exact Bool.false_ne_true
  · intro j hj
    refine inOrder_of_less ((cmp.less_or_less element (hbefore j hj)).resolve_right ?_)
    rw [hless']
    exact Bool.false_ne_true

/-- The element moves by one place to the right. -/
theorem modified_right {i : α} (hless : cmp.less i element)
    (hafter : cmp.Sorted unique (i :: after))
    (hbefore : before.Pairwise fun a b => cmp.inOrder unique b a)
    (hboth : ∀ j ∈ before, ∀ k ∈ i :: after, cmp.inOrder unique j k) :
    cmp.Modified unique (before.reverse ++ i :: after) element
        (cmp.settle unique before element (i :: after)) ↔
      cmp.Near unique before (i :: after) element := by
  have hresult : cmp.settle unique before element (i :: after) =
      before.reverse ++ i :: element :: after := by
    rw [settle_eq, shiftRight_of_less hless hafter]
    simp only
    rw [shiftLeft_of_inOrder]
    intro j hj
    exact hboth j (List.mem_of_mem_head? hj) i List.mem_cons_self
  have hi : cmp.inOrder unique i element := inOrder_of_less hless
  have hperm : (before.reverse ++ i :: element :: after).Perm
      (element :: (before.reverse ++ i :: after)) :=
    ((List.Perm.swap element i after).append_left _).trans (perm_middle before (i :: after) element)
  rw [hresult, modified_iff_sorted hperm]
  obtain ⟨hfirst, hrest⟩ := List.pairwise_cons.mp hafter
  constructor
  · intro hsorted
    refine ⟨fun j hj => ?_, fun j hj => ?_⟩
    · have hmem : j ∈ after := List.mem_of_getElem? (i := 0) hj
      exact List.rel_of_pairwise_cons
        (List.pairwise_cons.mp (List.pairwise_append.mp hsorted).2.1).2 hmem
    · exact inOrder_trans (hboth j (List.mem_of_getElem? hj) i List.mem_cons_self) hi
  · rintro ⟨hnear, -⟩
    have hall := inOrder_of_head hrest fun j hj => hnear j (by rwa [List.head?_eq_getElem?] at hj)
    refine sorted_append hbefore ?_ fun j hj k hk => ?_
    · refine List.pairwise_cons.mpr ⟨fun j hj => ?_, List.pairwise_cons.mpr ⟨hall, hrest⟩⟩
      rcases List.mem_cons.mp hj with rfl | hj
      · exact hi
      · exact hfirst j hj
    · have hji := hboth j hj i List.mem_cons_self
      rcases List.mem_cons.mp hk with rfl | hk
      · exact hji
      rcases List.mem_cons.mp hk with rfl | hk
      · exact inOrder_trans hji hi
      · exact hboth j hj k (List.mem_cons_of_mem i hk)

/-- The element moves by one place to the left. -/
theorem modified_left {i : α} (hless : cmp.less element i)
    (hright : ∀ j ∈ after, cmp.inOrder unique element j) (hafter : cmp.Sorted unique after)
    (hbefore : (i :: before).Pairwise fun a b => cmp.inOrder unique b a)
    (hboth : ∀ j ∈ i :: before, ∀ k ∈ after, cmp.inOrder unique j k) :
    cmp.Modified unique ((i :: before).reverse ++ after) element
        (cmp.settle unique (i :: before) element after) ↔
      cmp.Near unique (i :: before) after element := by
  have hresult : cmp.settle unique (i :: before) element after =
      before.reverse ++ element :: i :: after := by
    rw [settle_eq, shiftRight_of_inOrder fun j hj => hright j (List.mem_of_mem_head? hj)]
    simp only
    rw [shiftLeft_of_less hless hbefore]
    simp
  have hi : cmp.inOrder unique element i := inOrder_of_less hless
  have hperm : (before.reverse ++ element :: i :: after).Perm
      (element :: ((i :: before).reverse ++ after)) := by
    rw [List.reverse_cons, List.append_assoc]
    exact perm_middle before (i :: after) element
  rw [hresult, modified_iff_sorted hperm]
  obtain ⟨hlast, hrest⟩ := List.pairwise_cons.mp hbefore
  constructor
  · intro hsorted
    refine ⟨fun j hj => hright j (List.mem_of_getElem? hj), fun j hj => ?_⟩
    have hmem : j ∈ before := List.mem_of_getElem? (i := 0) hj
    exact (List.pairwise_append.mp hsorted).2.2 j (List.mem_reverse.mpr hmem) element
      List.mem_cons_self
  · rintro ⟨-, hnear⟩
    have hall := inOrder_of_last hrest fun j hj => hnear j (by rwa [List.head?_eq_getElem?] at hj)
    refine sorted_append hrest ?_ fun j hj k hk => ?_
    · refine List.pairwise_cons.mpr ⟨fun j hj => ?_, List.pairwise_cons.mpr ⟨fun j hj => ?_, hafter⟩⟩
      · rcases List.mem_cons.mp hj with rfl | hj
        · exact hi
        · exact hright j hj
      · exact hboth i List.mem_cons_self j hj
    · rcases List.mem_cons.mp hk with rfl | hk
      · exact hall j hj
      rcases List.mem_cons.mp hk with rfl | hk
      · exact hlast j hj
      · exact hboth j (List.mem_cons_of_mem i hj) k hk

/-- The element stays where it is. -/
theorem settle_still (hright : ∀ j ∈ after, cmp.inOrder unique element j)
    (hleft : ∀ j ∈ before, cmp.inOrder unique j element) :
    cmp.settle unique before element after = before.reverse ++ element :: after := by
  rw [settle_eq, shiftRight_of_inOrder fun j hj => hright j (List.mem_of_mem_head? hj)]
  simp only
  rw [shiftLeft_of_inOrder fun j hj => hleft j (List.mem_of_mem_head? hj)]

theorem modify_still {x : α} {action : α → α} (hleft : ∀ j ∈ before, cmp.inOrder unique j (action x))
    (hright : ∀ j ∈ after, cmp.inOrder unique (action x) j) :
    cmp.modify unique (before ++ x :: after) before.length action = before ++ action x :: after := by
  have hdrop : (before ++ x :: after).drop before.length = x :: after := List.drop_left
  have htake : (before ++ x :: after).take before.length = before := List.take_left
  rw [modify, hdrop]
  simp only
  rw [htake, settle_still hright fun j hj => hleft j (List.mem_reverse.mp hj), List.reverse_reverse]

theorem modified_still (hright : ∀ j ∈ after, cmp.inOrder unique element j)
    (hleft : ∀ j ∈ before, cmp.inOrder unique j element) (hafter : cmp.Sorted unique after)
    (hbefore : before.Pairwise fun a b => cmp.inOrder unique b a)
    (hboth : ∀ j ∈ before, ∀ k ∈ after, cmp.inOrder unique j k) :
    cmp.Modified unique (before.reverse ++ after) element (cmp.settle unique before element after) := by
  rw [settle_still hright hleft, modified_iff_sorted (perm_middle before after element)]
  refine sorted_append hbefore (List.pairwise_cons.mpr ⟨hright, hafter⟩) fun j hj k hk => ?_
  rcases List.mem_cons.mp hk with rfl | hk
  · exact hleft j hj
  · exact hboth j hj k hk

/-- A neighbour that is not less, and not in order, is equal in a set. -/
theorem collides_of_not_inOrder {i : α} (hless : cmp.less i element = false)
    (hnot : ¬cmp.inOrder unique element i) : unique = true ∧ cmp.less element i = false := by
  cases unique with
  | true => exact ⟨rfl, by simpa [inOrder_set] using hnot⟩
  | false =>
    rw [less_of_not_inOrder hnot rfl] at hless
    cases hless

theorem settle_iff {x : α} (hl : cmp.Sorted unique (before.reverse ++ x :: after)) :
    cmp.Modified unique (before.reverse ++ after) element (cmp.settle unique before element after) ↔
      cmp.Near unique before after element := by
  obtain ⟨hafter, hbefore, hboth⟩ := sorted_around hl
  have hsorted := sorted_append hbefore hafter hboth
  by_cases hright : ∀ j ∈ after.head?, cmp.inOrder unique element j
  · -- nothing follows that is less
    have hright' := inOrder_of_head hafter hright
    by_cases hleft : ∀ j ∈ before.head?, cmp.inOrder unique j element
    · refine iff_of_true (modified_still hright' (inOrder_of_last hbefore hleft) hafter hbefore hboth)
        ⟨fun j hj => hright' j (List.mem_of_getElem? hj), fun j hj => ?_⟩
      exact inOrder_of_last hbefore hleft j (List.mem_of_getElem? hj)
    · push Not at hleft
      obtain ⟨i, hi, hnot⟩ := hleft
      obtain ⟨rest, rfl⟩ := List.head?_eq_some_iff.mp hi
      cases hless : cmp.less element i with
      | true => exact modified_left hless hright' hafter hbefore hboth
      | false =>
        obtain ⟨hunique, hless'⟩ := collides_of_not_inOrder hless hnot
        subst hunique
        have hresult : cmp.settle true (i :: rest) element after = (i :: rest).reverse ++ after := by
          rw [settle_eq, shiftRight_of_inOrder hright]
          simp only [shiftLeft_cons, hless, hless', Bool.false_eq_true, if_false]
          rfl
        rw [hresult]
        refine iff_of_true (modified_of_erased rfl hsorted (Or.inl List.mem_cons_self) hless' hless) ?_
        refine near_of_collision hless' hless (fun j hj => ?_) fun j hj => ?_
        · exact hboth i List.mem_cons_self j (List.mem_of_getElem? hj)
        · exact List.rel_of_pairwise_cons hbefore (List.mem_of_getElem? (i := 0) hj)
  · push Not at hright
    obtain ⟨i, hi, hnot⟩ := hright
    obtain ⟨rest, rfl⟩ := List.head?_eq_some_iff.mp hi
    cases hless : cmp.less i element with
    | true => exact modified_right hless hafter hbefore hboth
    | false =>
      obtain ⟨hunique, hless'⟩ := collides_of_not_inOrder hless hnot
      subst hunique
      have hresult : cmp.settle true before element (i :: rest) = before.reverse ++ i :: rest := by
        simp only [settle_eq, shiftRight_cons, hless, hless', Bool.false_eq_true, if_false]
        rfl
      rw [hresult]
      refine iff_of_true
        (modified_of_erased rfl hsorted (Or.inr List.mem_cons_self) hless hless') ?_
      refine near_of_collision hless hless' (fun j hj => ?_) fun j hj => ?_
      · exact List.rel_of_pairwise_cons hafter (List.mem_of_getElem? (i := 0) hj)
      · exact hboth j (List.mem_of_getElem? hj) i List.mem_cons_self

theorem modify_iff (cmp : Compare α) (unique : Bool) (l : List α) (hl : cmp.Sorted unique l)
    (which : Nat) (h : which < l.length) (action : α → α) :
    cmp.Modified unique (l.eraseIdx which) (action l[which]) (cmp.modify unique l which action) ↔
      cmp.Near unique (l.take which).reverse (l.drop (which + 1)) (action l[which]) := by
  have hdrop := List.drop_eq_getElem_cons h
  have hsplit : (l.take which).reverse.reverse ++ l[which] :: l.drop (which + 1) = l := by
    rw [List.reverse_reverse, ← hdrop, List.take_append_drop]
  have herase : l.eraseIdx which = (l.take which).reverse.reverse ++ l.drop (which + 1) := by
    rw [List.reverse_reverse, List.eraseIdx_eq_take_drop_succ]
  rw [modify, hdrop, herase]
  exact settle_iff (hsplit.symm ▸ hl)

def ofInt : Compare Int where
  less a b := a < b
  asymm h := by
    rw [decide_eq_true_eq] at h
    exact decide_eq_false (by omega)
  less_or_less b h := by
    simp only [decide_eq_true_eq] at *
    omega

theorem modify_iff_swap :
    ofInt.Modified true ([1, 2, 4].eraseIdx 1) ([1, 2, 4][1] + 1)
        (ofInt.modify true [1, 2, 4] 1 (· + 1)) ↔
      ofInt.Near true ([1, 2, 4].take 1).reverse ([1, 2, 4].drop 2) ([1, 2, 4][1] + 1) :=
  modify_iff ofInt true [1, 2, 4] (by decide) 1 (by decide) (· + 1)

/-- The first element becomes the largest, and moves by one place. -/
theorem modify_moves_once : ofInt.Sorted true [1, 2, 3] ∧
    ofInt.modify true [1, 2, 3] 0 (fun _ => 5) = [2, 5, 3] ∧
    ofInt.modify false [1, 2, 3] 0 (fun _ => 5) = [2, 5, 3] ∧
    ¬ofInt.Modified true [2, 3] 5 (ofInt.modify true [1, 2, 3] 0 fun _ => 5) := by
  refine ⟨by decide, by decide, by decide, fun h => ?_⟩
  have hsorted : ofInt.Sorted true [2, 5, 3] := h.sorted
  exact absurd hsorted (by decide)

end Compare

end TelegramClient.Base
