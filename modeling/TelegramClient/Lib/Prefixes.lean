import Mathlib

/-! Words in lexicographic order and their prefixes: a word stands behind its prefixes, and
the words with a common prefix stand together. -/

namespace TelegramClient.Lib

variable {α : Type*}

section Order

variable [LinearOrder α]

theorem prefix_le {p l : List α} (h : p <+: l) : p ≤ l := by
  obtain ⟨q, rfl⟩ := h
  induction p with
  | nil => exact not_lt.mp (List.not_lt_nil _)
  | cons a p ih => exact List.cons_le_cons a ih

/-- What stands between two words with a prefix has the prefix, too. -/
theorem prefix_of_between {q a b c : List α} (hab : b ≤ a) (hbc : c ≤ b)
    (ha : q <+: a) (hc : q <+: c) : q <+: b := by
  induction q generalizing a b c with
  | nil => exact List.nil_prefix
  | cons x q ih =>
    obtain ⟨a, rfl, ha'⟩ := List.cons_prefix_iff.mp ha
    obtain ⟨c, rfl, hc'⟩ := List.cons_prefix_iff.mp hc
    cases b with
    | nil => exact absurd hbc (by simp)
    | cons y b =>
      have hxy : x ≤ y := by
        by_contra hlt
        exact absurd (List.Lex.rel (not_le.mp hlt)) (not_lt.mpr hbc)
      have hyx : y ≤ x := by
        by_contra hlt
        exact absurd (List.Lex.rel (not_le.mp hlt)) (not_lt.mpr hab)
      obtain rfl : x = y := le_antisymm hxy hyx
      have hab' : b ≤ a := by
        by_contra hlt
        exact absurd (List.Lex.cons (not_le.mp hlt)) (not_lt.mpr hab)
      have hbc' : c ≤ b := by
        by_contra hlt
        exact absurd (List.Lex.cons (not_le.mp hlt)) (not_lt.mpr hbc)
      simpa using ih hab' hbc' ha' hc'

end Order

section Agree

variable [DecidableEq α]

/-- The number of letters two words have in common at the start. -/
def agree : List α → List α → Nat
  | a :: p, b :: l => if a = b then agree p l + 1 else 0
  | _, _ => 0

@[simp] theorem agree_nil (l : List α) : agree [] l = 0 := rfl

@[simp] theorem agree_nil_right (p : List α) : agree p [] = 0 := by cases p <;> rfl

theorem agree_cons (a b : α) (p l : List α) :
    agree (a :: p) (b :: l) = if a = b then agree p l + 1 else 0 := rfl

theorem agree_le_length (p l : List α) : agree p l ≤ p.length := by
  induction p generalizing l with
  | nil => simp
  | cons a p ih =>
    cases l with
    | nil => simp
    | cons b l =>
      by_cases h : a = b
      · simpa [agree_cons, h] using ih l
      · simp [agree_cons, h]

theorem agree_le_length_right (p l : List α) : agree p l ≤ l.length := by
  induction p generalizing l with
  | nil => simp
  | cons a p ih =>
    cases l with
    | nil => simp
    | cons b l =>
      by_cases h : a = b
      · simpa [agree_cons, h] using ih l
      · simp [agree_cons, h]

theorem agree_eq_length_iff {p l : List α} : agree p l = p.length ↔ p <+: l := by
  induction p generalizing l with
  | nil => simp
  | cons a p ih =>
    cases l with
    | nil => simp
    | cons b l =>
      by_cases h : a = b
      · simp [agree_cons, h, ih, List.cons_prefix_cons]
      · simp [agree_cons, h, List.cons_prefix_cons]

theorem le_agree_iff {p l : List α} {n : Nat} (hn : n ≤ p.length) :
    n ≤ agree p l ↔ p.take n <+: l := by
  induction p generalizing l n with
  | nil => simp_all
  | cons a p ih =>
    cases n with
    | zero => simp
    | succ n =>
      cases l with
      | nil => simp
      | cons b l =>
        by_cases h : a = b
        · simpa [agree_cons, h, List.cons_prefix_cons] using ih (by simpa using hn)
        · simp [agree_cons, h, List.cons_prefix_cons]

theorem agree_append (p q l : List α) :
    agree (p ++ q) l = if p <+: l then p.length + agree q (l.drop p.length) else agree p l := by
  induction p generalizing l with
  | nil => simp
  | cons a p ih =>
    cases l with
    | nil => simp
    | cons b l =>
      by_cases h : a = b
      · subst h
        by_cases hp : p <+: l
        · simp [agree_cons, ih, hp, List.cons_prefix_cons]
          omega
        · simp [agree_cons, ih, hp, List.cons_prefix_cons]
      · simp [agree_cons, h, List.cons_prefix_cons]

theorem agree_mono {p q : List α} (h : p <+: q) (l : List α) : agree p l ≤ agree q l := by
  obtain ⟨r, rfl⟩ := h
  rw [agree_append]
  split
  · have := agree_le_length p l
    omega
  · rfl

theorem agree_of_prefix {p q : List α} (h : p <+: q) (l : List α) :
    agree p l = min (agree q l) p.length := by
  obtain ⟨r, rfl⟩ := h
  rw [agree_append]
  split
  · rename_i hp
    rw [agree_eq_length_iff.mpr hp]
    omega
  · have := agree_le_length p l
    omega

/-- A common prefix of `l` that is not longer than the agreement. -/
theorem prefix_of_le_agree {q k l : List α} (hq : q <+: l) (h : q.length ≤ agree k l) :
    q <+: k := by
  have hk := (le_agree_iff (agree_le_length k l)).mp le_rfl
  have hlen : q.length ≤ (k.take (agree k l)).length := by
    have := agree_le_length k l
    simp
    omega
  exact (List.prefix_of_prefix_length_le hq hk hlen).trans (List.take_prefix _ _)

theorem agree_snoc {p l : List α} {c : α} :
    agree (p ++ [c]) l =
      if p <+: l ∧ l[p.length]? = some c then p.length + 1 else agree p l := by
  rw [agree_append]
  by_cases hp : p <+: l
  · cases hl : l.drop p.length with
    | nil =>
      have : l.length ≤ p.length := by simpa using hl
      simp [hp, agree_eq_length_iff.mpr hp, List.getElem?_eq_none this]
    | cons d r =>
      have hd : l[p.length]? = some d := by
        have := congrArg List.head? hl
        simpa [List.head?_drop] using this
      by_cases hc : c = d
      · simp [hp, agree_cons, hd, hc]
      · simp [hp, agree_cons, hd, hc, Ne.symm hc, agree_eq_length_iff.mpr hp]
  · simp [hp]

end Agree

end TelegramClient.Lib
