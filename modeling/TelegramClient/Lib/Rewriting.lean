import Mathlib

/-! Lists of which each element is replaced by a list, and where the elements get to. -/

namespace Rewriting

variable {α β γ : Type*} {f : α → List β} {T : List α} {p q : Nat}

/-- Where the replacement of the element at a position starts. -/
def place (f : α → List β) (T : List α) (p : Nat) : Nat :=
  ((T.take p).flatMap f).length

theorem place_zero : place f T 0 = 0 := by
  simp [place]

theorem place_length : place f T T.length = (T.flatMap f).length := by
  simp [place]

theorem place_min : place f T p = place f T (min p T.length) := by
  rw [place, place, ← List.take_eq_take_min]

theorem place_add_one {a : α} (h : T[p]? = some a) :
    place f T (p + 1) = place f T p + (f a).length := by
  simp [place, List.take_add_one, h]

theorem place_mono (h : p ≤ q) : place f T p ≤ place f T q := by
  have hpre : T.take q = T.take p ++ (T.drop p).take (q - p) := by
    rw [← List.take_add, Nat.add_sub_cancel' h]
  rw [place, place, hpre, List.flatMap_append, List.length_append]
  omega

theorem take_flatMap : (T.flatMap f).take (place f T p) = (T.take p).flatMap f := by
  rw [← List.take_append_drop p T, List.flatMap_append, List.take_append_drop]
  exact List.take_left' rfl

theorem drop_flatMap : (T.flatMap f).drop (place f T p) = (T.drop p).flatMap f := by
  rw [← List.take_append_drop p T, List.flatMap_append, List.take_append_drop]
  exact List.drop_left' rfl

theorem getElem?_flatMap {a : α} (h : T[p]? = some a) {k : Nat} (hk : k < (f a).length) :
    (T.flatMap f)[place f T p + k]? = (f a)[k]? := by
  obtain ⟨hp, rfl⟩ := List.getElem?_eq_some_iff.mp h
  rw [← List.getElem?_drop, drop_flatMap, List.drop_eq_getElem_cons hp, List.flatMap_cons,
    List.getElem?_append_left hk]

theorem place_place (g : β → List γ) : place g (T.flatMap f) (place f T p) =
    place (fun a => (f a).flatMap g) T p := by
  rw [place, take_flatMap, place, List.flatMap_assoc]

/-- The replacements of the elements of a part are between those of its ends. -/
theorem exists_place_iff {s e i : Nat} :
    (∃ q, s ≤ q ∧ q < e ∧ place f T q ≤ i ∧ i < place f T (q + 1)) ↔
      place f T s ≤ i ∧ i < place f T e := by
  constructor
  · rintro ⟨q, hs, he, hle, hlt⟩
    have hstart : place f T s ≤ place f T q := place_mono hs
    have hend : place f T (q + 1) ≤ place f T e := place_mono he
    omega
  · rintro ⟨hle, hlt⟩
    induction e with
    | zero =>
      rw [place_zero] at hlt
      omega
    | succ e ih =>
      by_cases he : i < place f T e
      · obtain ⟨q, hs, hq, hplaces⟩ := ih he
        exact ⟨q, hs, by omega, hplaces⟩
      · refine ⟨e, ?_, by omega, by omega, hlt⟩
        by_contra hs
        have hmono : place f T (e + 1) ≤ place f T s := place_mono (by omega)
        omega

/-! ### One element replaced -/

/-- The first element of a kind is replaced. -/
def replaceFirst (p : α → Bool) (r : List α) : List α → List α
  | [] => []
  | x :: xs => if p x then r ++ xs else x :: replaceFirst p r xs

variable {P Q : α → Bool} {r s : List α} {xs ys : List α} {x : α}

theorem replaceFirst_append (h : ∀ y ∈ xs, ¬ P y) :
    replaceFirst P r (xs ++ ys) = xs ++ replaceFirst P r ys := by
  induction xs with
  | nil => rfl
  | cons y xs ih =>
    rw [List.forall_mem_cons] at h
    rw [List.cons_append, replaceFirst, if_neg h.1, ih h.2, List.cons_append]

theorem replaceFirst_cons (h : P x) : replaceFirst P r (x :: xs) = r ++ xs := by
  rw [replaceFirst, if_pos h]

theorem replaceFirst_comm (hPQ : ∀ x, P x → ¬ Q x) (hr : ∀ x ∈ r, ¬ Q x) (hs : ∀ x ∈ s, ¬ P x)
    (xs : List α) :
    replaceFirst Q s (replaceFirst P r xs) = replaceFirst P r (replaceFirst Q s xs) := by
  induction xs with
  | nil => rfl
  | cons x xs ih =>
    by_cases hP : P x
    · have hQ := hPQ x hP
      rw [replaceFirst_cons hP, replaceFirst_append hr, replaceFirst, if_neg hQ,
        replaceFirst_cons hP]
    · by_cases hQ : Q x
      · rw [replaceFirst, if_neg hP, replaceFirst_cons hQ, replaceFirst_cons hQ,
          replaceFirst_append hs]
      · rw [replaceFirst, if_neg hP, replaceFirst, if_neg hQ, replaceFirst, if_neg hQ,
          replaceFirst, if_neg hP, ih]

end Rewriting
