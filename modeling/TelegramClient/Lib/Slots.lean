import Mathlib

/-! A vector of places, some of them empty, whose entries are moved to the left over empty
places. It is looked at through a function that tells what is found at each place. -/

namespace TelegramClient.Slots

variable {α β : Type*}

/-- What is found at the places from `i` on and before `j`. -/
def between (f : Nat → Option β) (i j : Nat) : List β := (List.range' i (j - i)).filterMap f

variable {f g : Nat → Option β} {i j k n : Nat}

theorem between_self : between f i i = [] := by
  rw [between, Nat.sub_self]
  rfl

theorem between_congr (h : ∀ n, i ≤ n → n < j → f n = g n) : between f i j = between g i j := by
  refine List.filterMap_congr fun n hn => ?_
  rw [List.mem_range'_1] at hn
  exact h n hn.1 (by omega)

theorem between_eq_nil (h : ∀ n, i ≤ n → n < j → f n = none) : between f i j = [] := by
  refine List.filterMap_eq_nil_iff.mpr fun n hn => ?_
  rw [List.mem_range'_1] at hn
  exact h n hn.1 (by omega)

theorem between_append (hij : i ≤ j) (hjk : j ≤ k) :
    between f i j ++ between f j k = between f i k := by
  have hrange : List.range' i (j - i) ++ List.range' j (k - j) = List.range' i (k - i) := by
    have hsum := List.range'_append_1 (s := i) (m := j - i) (n := k - j)
    rw [show i + (j - i) = j by omega, show j - i + (k - j) = k - i by omega] at hsum
    exact hsum
  rw [between, between, ← List.filterMap_append, hrange]
  rfl

theorem between_cons (h : i < j) : between f i j = (f i).toList ++ between f (i + 1) j := by
  rw [between, show j - i = j - (i + 1) + 1 by omega, List.range'_succ, List.filterMap_cons]
  cases f i with
  | none => rfl
  | some b => rfl

theorem between_sublist (hik : k ≤ i) (hjn : j ≤ n) : (between f i j).Sublist (between f k n) := by
  by_cases hij : i ≤ j
  · rw [← between_append (hik.trans hij) hjn, ← between_append hik hij, List.append_assoc]
    exact (List.sublist_append_left _ _).trans (List.sublist_append_right _ _)
  · rw [between, Nat.sub_eq_zero_of_le (by omega)]
    exact List.nil_sublist _

/-- An entry moved to the left over empty places stays between the same entries. -/
theorem between_move (hkj : k ≤ j) (hji : j < i) (hin : i < n)
    (hempty : ∀ m, j ≤ m → m < i → f m = none) (hplace : g j = f i) (hleft : g i = none)
    (hother : ∀ m, m ≠ i → m ≠ j → g m = f m) : between g k n = between f k n := by
  have hfront : between g k j = between f k j :=
    between_congr fun m _ hm => hother m (by omega) (by omega)
  have hback : between g (i + 1) n = between f (i + 1) n :=
    between_congr fun m hm _ => hother m (by omega) (by omega)
  have hmid : between g (j + 1) i = [] := by
    refine between_eq_nil fun m hm hm' => ?_
    rw [hother m (by omega) (by omega)]
    exact hempty m (by omega) hm'
  calc between g k n
      = between g k j ++ ((g j).toList ++ (between g (j + 1) i ++
          ((g i).toList ++ between g (i + 1) n))) := by
        rw [← between_cons hin, between_append (Nat.succ_le_of_lt hji) (Nat.le_of_lt hin),
          ← between_cons (hji.trans hin), between_append hkj (Nat.le_of_lt (hji.trans hin))]
    _ = between f k j ++ (between f j i ++ ((f i).toList ++ between f (i + 1) n)) := by
        rw [hfront, hback, hmid, hplace, hleft, between_eq_nil hempty]
        rfl
    _ = between f k n := by
        rw [← between_cons hin, between_append (Nat.le_of_lt hji) (Nat.le_of_lt hin),
          between_append hkj (Nat.le_of_lt (hji.trans hin))]

theorem between_filter (q : β → Bool) :
    between (fun n => (f n).filter q) i j = (between f i j).filter q := by
  rw [between, between, List.filter_filterMap]

theorem between_shift (d : Nat) :
    between (fun n => f (n + d)) i j = between f (i + d) (j + d) := by
  rw [between, between, Nat.add_sub_add_right, Nat.add_comm i d, ← List.map_add_range',
    List.filterMap_map]
  refine List.filterMap_congr fun n _ => ?_
  rw [Function.comp_apply, Nat.add_comm]

theorem between_length {p : Option α → Option β} (l : List (Option α)) :
    between (fun n => p l[n]?.join) 0 l.length = l.filterMap p := by
  induction l using List.reverseRecOn with
  | nil => rfl
  | append_singleton l x ih =>
    rw [List.length_append, List.length_singleton, List.filterMap_append, ← ih,
      ← between_append (Nat.zero_le l.length) (Nat.le_succ _), between_cons (Nat.lt_succ_self _),
      between_self, List.getElem?_concat_length]
    congr 1
    · refine between_congr fun n _ hn => ?_
      rw [List.getElem?_append_left hn]
    · rw [List.append_nil, List.filterMap_cons, Option.join_some]
      cases p x with
      | none => rfl
      | some b => rfl

variable {l : List (Option α)}

/-- Moves the entry of place `i` to place `j`. -/
def move (l : List (Option α)) (i j : Nat) : List (Option α) :=
  (l.set j (l[i]?.join)).set i none

theorem length_move : (move l i j).length = l.length := by
  simp [move]

theorem join_set_none : (l.set i none)[n]?.join = if n = i then none else l[n]?.join := by
  by_cases hni : n = i
  · rw [if_pos hni, List.getElem?_set, if_pos hni.symm]
    split
    · rfl
    · rfl
  · rw [if_neg hni, List.getElem?_set_ne (Ne.symm hni)]

theorem join_move (hj : j < l.length) :
    (move l i j)[n]?.join = if n = i then none else if n = j then l[i]?.join else l[n]?.join := by
  rw [move, join_set_none]
  by_cases hni : n = i
  · rw [if_pos hni, if_pos hni]
  · rw [if_neg hni, if_neg hni]
    by_cases hnj : n = j
    · rw [if_pos hnj, hnj, List.getElem?_set_self hj]
      rfl
    · rw [if_neg hnj, List.getElem?_set_ne (Ne.symm hnj)]

/-- The places from `j` on are copied to the places from `i` on. -/
theorem getElem?_copy (hij : i ≤ j) (hj : j ≤ l.length) :
    (l.take i ++ l.drop j ++ l.drop (i + (l.drop j).length))[n]? =
      if i ≤ n ∧ n < i + (l.length - j) then l[n - i + j]? else l[n]? := by
  have hi : (l.take i).length = i := List.length_take_of_le (hij.trans hj)
  have hfront : (l.take i ++ l.drop j).length = i + (l.length - j) := by
    rw [List.length_append, hi, List.length_drop]
  by_cases hni : n < i
  · rw [if_neg (by omega), List.getElem?_append_left (by omega),
      List.getElem?_append_left (by omega), List.getElem?_take, if_pos hni]
  · by_cases hnj : n < i + (l.length - j)
    · rw [if_pos ⟨by omega, hnj⟩, List.getElem?_append_left (by omega),
        List.getElem?_append_right (by omega), hi, List.getElem?_drop]
      congr 1
      omega
    · rw [if_neg (by omega), List.getElem?_append_right (by omega), hfront, List.getElem?_drop,
        List.length_drop]
      congr 1
      omega

end TelegramClient.Slots
