import Mathlib

/-! Words that are read token by token, where each token has a meaning. -/

namespace Tokens

variable {α β γ : Type*}

/-- The meanings of the tokens of a word. -/
inductive Reads (T : List α → β → Prop) : List α → List β → Prop
  | nil : Reads T [] []
  | cons (t l : List α) (b : β) (bs : List β) (ht : T t b) (h : Reads T l bs) :
      Reads T (t ++ l) (b :: bs)

/-- What a token is does not depend on what follows it. -/
structure PrefixFree (T : List α → β → Prop) : Prop where
  ne_nil : ∀ t b, T t b → t ≠ []
  unique : ∀ t t' b b' l l', T t b → T t' b' → t ++ l = t' ++ l' → t = t' ∧ b = b'

variable {T : List α → β → Prop} {l l' t : List α} {b : β} {bs bs' : List β}

theorem Reads.append (h : Reads T l bs) (h' : Reads T l' bs') : Reads T (l ++ l') (bs ++ bs') := by
  induction h with
  | nil => exact h'
  | cons t l b bs ht _ ih =>
    rw [List.append_assoc, List.cons_append]
    exact .cons t _ b _ ht ih

theorem Reads.of_cons (hfree : PrefixFree T) (ht : T t b) (h : Reads T (t ++ l) bs) :
    ∃ bs', bs = b :: bs' ∧ Reads T l bs' := by
  generalize hword : t ++ l = word at h
  cases h with
  | nil => exact absurd (List.append_eq_nil_iff.mp hword).1 (hfree.ne_nil t b ht)
  | cons t' l' b' bs' ht' h' =>
    obtain ⟨rfl, rfl⟩ := hfree.unique t t' b b' l l' ht ht' hword
    rw [List.append_cancel_left hword]
    exact ⟨bs', rfl, h'⟩

theorem Reads.of_append (hfree : PrefixFree T) (h : Reads T l bs) {cs : List β}
    (hall : Reads T (l ++ l') cs) : ∃ cs', cs = bs ++ cs' ∧ Reads T l' cs' := by
  induction h generalizing cs with
  | nil => exact ⟨cs, rfl, hall⟩
  | cons t l b bs ht _ ih =>
    rw [List.append_assoc] at hall
    obtain ⟨cs', rfl, hrest⟩ := hall.of_cons hfree ht
    obtain ⟨cs'', rfl, hread⟩ := ih hrest
    exact ⟨cs'', rfl, hread⟩

theorem Reads.unique (hfree : PrefixFree T) (h : Reads T l bs) (h' : Reads T l bs') : bs = bs' := by
  have hall : Reads T (l ++ []) bs' := by
    rw [List.append_nil]
    exact h'
  obtain ⟨cs, rfl, hnil⟩ := h.of_append hfree hall
  generalize hword : ([] : List α) = word at hnil
  cases hnil with
  | nil => rw [List.append_nil]
  | cons t l b bs ht _ => exact absurd (List.append_eq_nil_iff.mp hword.symm).1 (hfree.ne_nil t b ht)

/-- A word that is written letter by letter is read exactly when each letter is written as a token
that means the right thing. -/
theorem reads_iff (hfree : PrefixFree T) {write : List γ → List α} {good : γ → Prop} {g : γ → β}
    (hnil : write [] = [])
    (hgood : ∀ c, good c → ∃ t, T t (g c) ∧ ∀ rest, write (c :: rest) = t ++ write rest)
    (hbad : ∀ c rest cs, ¬ good c → ¬ Reads T (write (c :: rest)) cs) (word : List γ) :
    Reads T (write word) (word.map g) ↔ ∀ c ∈ word, good c := by
  induction word with
  | nil =>
    rw [hnil]
    constructor
    · intro _ c hc
      cases hc
    · exact fun _ => .nil
  | cons c word ih =>
    rw [List.forall_mem_cons, ← ih]
    constructor
    · intro h
      by_cases hc : good c
      · obtain ⟨t, ht, hwrite⟩ := hgood c hc
        rw [hwrite] at h
        obtain ⟨bs, hbs, hread⟩ := h.of_cons hfree ht
        rw [List.map_cons] at hbs
        rw [(List.cons.inj hbs).2]
        exact ⟨hc, hread⟩
      · exact absurd h (hbad c word _ hc)
    · intro h
      obtain ⟨t, ht, hwrite⟩ := hgood c h.1
      rw [hwrite, List.map_cons]
      exact .cons t _ _ _ ht h.2

end Tokens
