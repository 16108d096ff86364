import Mathlib

/-! Lists that are read element by element, where an element takes several places. -/

namespace Segments

variable {α : Type*}

/-- The sizes of the elements at the starts of lists. -/
structure Reading (α : Type*) where
  size : List α → Nat
  size_pos : ∀ l, l ≠ [] → 0 < size l
  size_le : ∀ l, l ≠ [] → size l ≤ l.length

/-- The places of a list where elements start, or its end. -/
inductive Start (r : Reading α) (l : List α) : Nat → Prop
  | zero : Start r l 0
  | next (p : Nat) (h : Start r l p) (hlt : p < l.length) : Start r l (p + r.size (l.drop p))

variable {r : Reading α} {l : List α} {p q : Nat}

theorem drop_ne_nil (h : p < l.length) : l.drop p ≠ [] := by
  intro hnil
  have hlen := congrArg List.length hnil
  rw [List.length_drop, List.length_nil] at hlen
  omega

theorem Reading.drop_pos (r : Reading α) (h : p < l.length) : 0 < r.size (l.drop p) :=
  r.size_pos _ (drop_ne_nil h)

theorem Reading.add_drop_le (r : Reading α) (h : p < l.length) :
    p + r.size (l.drop p) ≤ l.length := by
  have hle := r.size_le _ (drop_ne_nil h)
  rw [List.length_drop] at hle
  omega

theorem Start.le_length (h : Start r l p) : p ≤ l.length := by
  induction h with
  | zero => exact Nat.zero_le _
  | next p _ hlt _ => exact r.add_drop_le hlt

theorem Start.length (h : Start r l p) : Start r l l.length := by
  induction hn : l.length - p using Nat.strong_induction_on generalizing p with
  | _ n ih =>
    have hle := h.le_length
    by_cases hlt : p < l.length
    · have hpos := r.drop_pos hlt
      exact ih _ (by omega) (Start.next p h hlt) rfl
    · rw [show p = l.length by omega] at h
      exact h

theorem Start.drop (hp : Start r l p) (hq : Start r (l.drop p) q) : Start r l (p + q) := by
  induction hq with
  | zero => exact hp
  | next q _ hlt ih =>
    rw [List.length_drop] at hlt
    have hnext := Start.next (p + q) ih (by omega)
    rw [← List.drop_drop, Nat.add_assoc] at hnext
    exact hnext

theorem Start.not_inside (hp : Start r l p) (hq : Start r l q) (hlt : p < q) :
    p + r.size (l.drop p) ≤ q := by
  induction hk : p + q using Nat.strong_induction_on generalizing p q with
  | _ k ih =>
    cases hq with
    | zero => omega
    | next q' hq' hlen =>
      rcases Nat.lt_trichotomy p q' with hless | rfl | hgt
      · have hpos := r.drop_pos hlen
        have hle := ih (p + q') (by omega) hp hq' hless rfl
        omega
      · exact le_rfl
      · have hle := ih (q' + p) (by omega) hq' hp hgt rfl
        omega

theorem Start.sub (hp : Start r l p) (hq : Start r l q) (hle : p ≤ q) :
    Start r (l.drop p) (q - p) := by
  induction hq with
  | zero =>
    rw [Nat.zero_sub]
    exact .zero
  | next q' hq' hlen ih =>
    by_cases hless : p ≤ q'
    · have hnext := Start.next (q' - p) (ih hless) (by rw [List.length_drop]; omega)
      rw [List.drop_drop, Nat.add_sub_cancel' hless] at hnext
      rw [Nat.sub_add_comm hless]
      exact hnext
    · have hinside := hq'.not_inside hp (by omega)
      have hsame : p = q' + r.size (l.drop q') := by omega
      rw [← hsame, Nat.sub_self]
      exact .zero

end Segments
