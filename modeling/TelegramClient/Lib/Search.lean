import Mathlib

/-! Where a list begins inside of another one, looked for from a place on. -/

namespace Search

section

variable {α : Type*} {pattern l : List α} {k : Nat}

theorem eq_take_append (h : pattern <+: l.drop k) :
    ∃ after, l = l.take k ++ pattern ++ after := by
  obtain ⟨after, hafter⟩ := h
  exact ⟨after, by rw [List.append_assoc, hafter, List.take_append_drop]⟩

/-- The first place of a pattern is in the list. -/
theorem le_length_of_isLeast (h : IsLeast {k | pattern <+: l.drop k} k) : k ≤ l.length := by
  by_contra hlt
  have hnil : pattern = [] := by
    have hpre : pattern <+: l.drop k := h.1
    rwa [List.drop_eq_nil_of_le (by omega), List.prefix_nil] at hpre
  have hle : k ≤ 0 := h.2 (show pattern <+: l.drop 0 by rw [hnil]; exact List.nil_prefix)
  omega

end

variable {α : Type*} [DecidableEq α]

/-- The first place from the offset on where the pattern begins. -/
def indexOf (pattern l : List α) (offset : Nat) : Option Nat :=
  ((l.drop offset).dropInfix? pattern).map fun parts => offset + parts.1.length

variable {pattern l before after : List α} {offset k : Nat}

theorem dropInfix?_isLeast (h : l.dropInfix? pattern = some (before, after)) :
    IsLeast {k | pattern <+: l.drop k} before.length := by
  obtain ⟨⟨found, heq, hfound⟩, hleast⟩ := List.dropInfix?_eq_some_iff.mp h
  obtain rfl := eq_of_beq hfound
  constructor
  · rw [Set.mem_ofPred_eq, heq, List.append_assoc, List.drop_left]
    exact List.prefix_append found after
  · intro j hj
    by_cases hle : j ≤ l.length
    · obtain ⟨rest, hrest⟩ := eq_take_append hj
      have hlength := hleast (l.take j) found rest hrest hfound
      rwa [List.length_take, Nat.min_eq_left hle] at hlength
    · have hlength := congrArg List.length heq
      simp only [List.length_append] at hlength
      omega

theorem exists_dropInfix? (h : IsLeast {k | pattern <+: l.drop k} k) :
    ∃ after, l.dropInfix? pattern = some (l.take k, after) := by
  obtain ⟨after, heq⟩ := eq_take_append h.1
  refine ⟨after, List.dropInfix?_eq_some_iff.mpr ⟨⟨pattern, heq, beq_self_eq_true pattern⟩, ?_⟩⟩
  intro p found s hsplit hfound
  obtain rfl := eq_of_beq hfound
  have hle : k ≤ p.length := h.2 (by
    rw [Set.mem_ofPred_eq, hsplit, List.append_assoc, List.drop_left]
    exact List.prefix_append found s)
  rw [List.length_take]
  omega

theorem indexOf_eq_some_iff : indexOf pattern l offset = some k ↔
    IsLeast {k | offset ≤ k ∧ pattern <+: l.drop k} k := by
  have hshift : ∀ j, IsLeast {k | pattern <+: (l.drop offset).drop k} j ↔
      IsLeast {k | offset ≤ k ∧ pattern <+: l.drop k} (offset + j) := by
    intro j
    simp only [IsLeast, lowerBounds, Set.mem_ofPred_eq, List.drop_drop, Nat.le_add_right, true_and]
    refine and_congr_right fun _ => ⟨fun h i hi => ?_, fun h i hi => ?_⟩
    · obtain ⟨i, rfl⟩ := Nat.exists_eq_add_of_le hi.1
      exact Nat.add_le_add_left (h hi.2) offset
    · exact Nat.le_of_add_le_add_left (h ⟨Nat.le_add_right offset i, hi⟩)
  constructor
  · intro h
    obtain ⟨⟨before, after⟩, hparts, rfl⟩ := Option.map_eq_some_iff.mp h
    exact (hshift before.length).mp (dropInfix?_isLeast hparts)
  · intro h
    obtain ⟨j, rfl⟩ := Nat.exists_eq_add_of_le h.1.1
    have hleast := (hshift j).mpr h
    obtain ⟨after, hparts⟩ := exists_dropInfix? hleast
    have hle := le_length_of_isLeast hleast
    rw [indexOf, hparts, Option.map_some, List.length_take, Nat.min_eq_left hle]

theorem indexOf_eq_none_iff : indexOf pattern l offset = none ↔
    ∀ k, offset ≤ k → ¬ pattern <+: l.drop k := by
  constructor
  · intro h k hle hpre
    have hne : {k | offset ≤ k ∧ pattern <+: l.drop k}.Nonempty := ⟨k, hle, hpre⟩
    have hsome := indexOf_eq_some_iff.mpr (isLeast_csInf hne)
    rw [h] at hsome
    cases hsome
  · intro h
    cases hk : indexOf pattern l offset with
    | none => rfl
    | some k =>
      have hleast := (indexOf_eq_some_iff.mp hk).1
      exact absurd hleast.2 (h k hleast.1)

end Search
