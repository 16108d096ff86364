import Mathlib

/-! Words that are searched for in a list sorted by `compare`. Those that begin with a given one
stand together, from the first word that is not before it. -/

namespace PrefixSearch

variable {α β : Type*}

theorem takeWhile_eq_filter {p : β → Bool} {l : List β} (h : l.Pairwise fun a b => p b → p a) :
    l.takeWhile p = l.filter p := by
  induction l with
  | nil => rfl
  | cons a l ih =>
    obtain ⟨ha, hl⟩ := List.pairwise_cons.mp h
    cases hp : p a with
    | true => simp [hp, ih hl]
    | false =>
      have hnone : l.filter p = [] := by
        rw [List.filter_eq_nil_iff]
        intro b hb hpb
        simp [ha b hb hpb] at hp
      simp [hp, hnone]

/-- Everything before the chosen elements is dropped, and they are taken while there are some. -/
theorem takeWhile_dropWhile_eq_filter {before p : β → Bool} {l : List β}
    (hbefore : ∀ a ∈ l, before a → p a = false) (hdown : l.Pairwise fun a b => before b → before a)
    (htogether : l.Pairwise fun a b => p b → before a ∨ p a) :
    (l.dropWhile before).takeWhile p = l.filter p := by
  induction l with
  | nil => rfl
  | cons a l ih =>
    obtain ⟨ha, hl⟩ := List.pairwise_cons.mp hdown
    obtain ⟨hpa, hpl⟩ := List.pairwise_cons.mp htogether
    cases hb : before a with
    | true =>
      have hp := hbefore a List.mem_cons_self hb
      simp [hb, hp, ih (fun b hmem => hbefore b (List.mem_cons_of_mem a hmem)) hl hpl]
    | false =>
      have hafter : ∀ b ∈ a :: l, before b = false := by
        intro b hmem
        cases List.mem_cons.mp hmem with
        | inl heq => rw [heq, hb]
        | inr hmem =>
          by_contra hbb
          simp [ha b hmem (by simpa using hbb)] at hb
      rw [List.dropWhile_cons_of_neg (by simp [hb])]
      apply takeWhile_eq_filter
      refine htogether.imp_of_mem ?_
      intro b c hbmem _ hbc hpc
      cases hbc hpc with
      | inl hbb => simp [hafter b hbmem] at hbb
      | inr hpb => exact hpb

/-! ### Words in the lexicographic order -/

variable [Ord α] [Std.TransOrd α] [Std.LawfulEqOrd α] {q a b : List α}

omit [Std.LawfulEqOrd α] in
theorem not_lt_of_prefix (h : q <+: a) : compare a q ≠ .lt := by
  induction q generalizing a with
  | nil => cases a <;> simp
  | cons x q ih =>
    obtain ⟨rest, rfl⟩ := h
    simpa using ih (List.prefix_append q rest)

omit [Std.TransOrd α] in
/-- A word between a prefix and a word that begins with it begins with it. -/
theorem prefix_of_between (hqa : compare a q ≠ .lt) (hab : compare a b ≠ .gt) (hqb : q <+: b) :
    q <+: a := by
  induction q generalizing a b with
  | nil => exact List.nil_prefix
  | cons x q ih =>
    obtain ⟨rest, rfl⟩ := hqb
    cases a with
    | nil => simp at hqa
    | cons y a =>
      rw [List.compare_cons_cons] at hqa
      rw [List.cons_append, List.compare_cons_cons] at hab
      cases hyx : compare y x with
      | lt => simp [hyx] at hqa
      | gt => simp [hyx] at hab
      | eq =>
        rw [hyx, Ordering.eq_then] at hqa hab
        rw [Std.compare_eq_iff_eq.mp hyx]
        exact (List.prefix_cons_inj x).mpr (ih hqa hab (List.prefix_append q rest))

end PrefixSearch
