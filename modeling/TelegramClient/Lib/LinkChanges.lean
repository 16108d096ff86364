import TelegramClient.Lib.Links

/-! Elements taken out of a linked list and put into one at any place, its ends included, by what
the links say afterwards. -/

namespace Linked

variable {α : Type*} {s s' : Links α} {l A B : List α} {x : α}

theorem whole_iff : Whole s l ↔
    ∀ A x B, l = A ++ x :: B → s.prev x = A.getLast? ∧ s.next x = B.head? := by
  constructor
  · rintro h A x B rfl
    exact ⟨h.prev_append, h.next_append⟩
  · intro h
    constructor
    · rw [List.isChain_iff_forall_rel_of_append_cons_cons]
      intro x y A B heq
      have hx := (h A x (y :: B) heq).2
      have hy := (h (A ++ [x]) y B (by simp [heq])).1
      rw [List.getLast?_concat] at hy
      exact ⟨hx, hy⟩
    · intro x hx
      obtain ⟨B, rfl⟩ := List.head?_eq_some_iff.mp hx
      exact (h [] x B rfl).1
    · intro x hx
      obtain ⟨A, rfl⟩ := List.getLast?_eq_some_iff.mp hx
      exact (h A x [] rfl).2

/-- An element of two lists is in the first or in the second. -/
theorem split_append {A' B' : List α} (h : A ++ B = A' ++ x :: B') :
    (∃ C, A = A' ++ x :: C ∧ B' = C ++ B) ∨ ∃ C, B = C ++ x :: B' ∧ A' = A ++ C := by
  rcases List.append_eq_append_iff.mp h with ⟨C, hA', hB⟩ | ⟨C, hA, hB'⟩
  · exact .inr ⟨C, hB, hA'⟩
  · cases C with
    | nil => exact .inr ⟨[], hB'.symm, by simpa using hA.symm⟩
    | cons c C =>
      obtain ⟨rfl, rfl⟩ := List.cons.inj hB'
      exact .inl ⟨C, hA, rfl⟩

theorem head?_ne (h : x ∉ l) : l.head? ≠ some x := fun heq => h (List.mem_of_mem_head? heq)

theorem getLast?_ne (h : x ∉ l) : l.getLast? ≠ some x := fun heq => h (List.mem_of_getLast? heq)

section Changes

variable [DecidableEq α]

/-- Links are repaired around an element that is taken out. -/
theorem Whole.takeOut (h : Whole s (A ++ x :: B)) (hnodup : (A ++ x :: B).Nodup)
    (hprev : ∀ z, z ≠ x → s'.prev z = if B.head? = some z then A.getLast? else s.prev z)
    (hnext : ∀ z, z ≠ x → s'.next z = if A.getLast? = some z then B.head? else s.next z) :
    Whole s' (A ++ B) := by
  rw [whole_iff]
  intro A' z B' heq
  rcases split_append heq with ⟨C, rfl, rfl⟩ | ⟨C, rfl, rfl⟩
  · have hz : z ≠ x := by grind
    have hB : B.head? ≠ some z := head?_ne (by grind)
    have hnode := whole_iff.mp h A' z (C ++ x :: B) (by simp)
    rw [hprev z hz, hnext z hz, if_neg hB, hnode.1, hnode.2]
    refine ⟨rfl, ?_⟩
    cases C with
    | nil => simp
    | cons c C =>
      have hlast : (A' ++ z :: c :: C).getLast? ≠ some z := by
        have hne := @getLast?_ne _ (c :: C) z (by grind)
        rwa [List.getLast?_append_cons, List.getLast?_cons_cons]
      rw [if_neg hlast]
      simp
  · have hz : z ≠ x := by grind
    have hA : A.getLast? ≠ some z := getLast?_ne (by grind)
    have hnode := whole_iff.mp h (A ++ x :: C) z B' (by simp)
    rw [hprev z hz, hnext z hz, if_neg hA, hnode.1, hnode.2]
    refine ⟨?_, rfl⟩
    cases C with
    | nil => simp
    | cons c C =>
      have hhead : (c :: C ++ z :: B').head? ≠ some z := by grind
      rw [if_neg hhead]
      simp [List.getLast?_append]

/-- Links are set around an element that is put in. -/
theorem Whole.putIn (h : Whole s (A ++ B)) (hnodup : (A ++ x :: B).Nodup)
    (hprev : ∀ z, s'.prev z =
      if z = x then A.getLast? else if B.head? = some z then some x else s.prev z)
    (hnext : ∀ z, s'.next z =
      if z = x then B.head? else if A.getLast? = some z then some x else s.next z) :
    Whole s' (A ++ x :: B) := by
  rw [whole_iff]
  intro A' z B' heq
  rcases split_append heq with ⟨C, rfl, rfl⟩ | ⟨C, hC, rfl⟩
  · have hz : z ≠ x := by grind
    have hB : B.head? ≠ some z := head?_ne (by grind)
    have hnode := whole_iff.mp h A' z (C ++ B) (by simp)
    rw [hprev z, hnext z, if_neg hz, if_neg hz, if_neg hB, hnode.1, hnode.2]
    refine ⟨rfl, ?_⟩
    cases C with
    | nil => simp
    | cons c C =>
      have hlast : (A' ++ z :: c :: C).getLast? ≠ some z := by
        have hne := @getLast?_ne _ (c :: C) z (by grind)
        rwa [List.getLast?_append_cons, List.getLast?_cons_cons]
      rw [if_neg hlast]
      simp
  · cases C with
    | nil =>
      obtain ⟨rfl, rfl⟩ := List.cons.inj hC
      rw [hprev x, hnext x, if_pos rfl, if_pos rfl]
      simp
    | cons c C =>
      rw [List.cons_append, List.cons.injEq] at hC
      obtain ⟨rfl, rfl⟩ := hC
      have hz : z ≠ x := by grind
      have hA : A.getLast? ≠ some z := getLast?_ne (by grind)
      have hnode := whole_iff.mp h (A ++ C) z B' (by simp)
      rw [hprev z, hnext z, if_neg hz, if_neg hz, if_neg hA, hnode.1, hnode.2]
      refine ⟨?_, rfl⟩
      cases C with
      | nil => simp
      | cons c C =>
        have hhead : (c :: C ++ z :: B').head? ≠ some z := by grind
        rw [if_neg hhead]
        simp [List.getLast?_append]

end Changes

end Linked
