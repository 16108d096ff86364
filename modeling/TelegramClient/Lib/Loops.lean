import Mathlib

/-! Loops that are run for a number of rounds. -/

namespace Loops

variable {σ ρ : Type*}

/-- The result of a loop that ends within some rounds. -/
def iterate (step : σ → ρ ⊕ σ) : Nat → σ → Option ρ
  | 0, _ => none
  | n + 1, s => (step s).elim some (iterate step n)

variable {step : σ → ρ ⊕ σ} {s t : σ} {r : ρ} {n : Nat} {I : σ → Prop}

theorem iterate_of_again (h : step s = .inr t) : iterate step (n + 1) s = iterate step n t := by
  rw [iterate, h]
  rfl

theorem iterate_of_done (h : step s = .inl r) : iterate step (n + 1) s = some r := by
  rw [iterate, h]
  rfl

theorem iterate_succ (h : iterate step n s = some r) : iterate step (n + 1) s = some r := by
  induction n generalizing s with
  | zero => cases h
  | succ n ih =>
    cases hstep : step s with
    | inl r' =>
      rw [iterate_of_done hstep] at h ⊢
      exact h
    | inr t =>
      rw [iterate_of_again hstep] at h ⊢
      exact ih h

theorem iterate_mono {m : Nat} (hmn : n ≤ m) (h : iterate step n s = some r) :
    iterate step m s = some r := by
  induction hmn with
  | refl => exact h
  | step _ ih => exact iterate_succ ih

theorem iterate_unique {m : Nat} {r' : ρ} (h : iterate step n s = some r)
    (h' : iterate step m s = some r') : r = r' := by
  have hn := iterate_mono (Nat.le_max_left n m) h
  have hm := iterate_mono (Nat.le_max_right n m) h'
  rw [hn, Option.some.injEq] at hm
  exact hm

theorem iterate_rule {Q : ρ → Prop} (hagain : ∀ s t, I s → step s = .inr t → I t)
    (hdone : ∀ s r, I s → step s = .inl r → Q r) (hs : I s) (h : iterate step n s = some r) :
    Q r := by
  induction n generalizing s with
  | zero => cases h
  | succ n ih =>
    cases hstep : step s with
    | inl r' =>
      rw [iterate_of_done hstep, Option.some.injEq] at h
      rw [← h]
      exact hdone s r' hs hstep
    | inr t =>
      rw [iterate_of_again hstep] at h
      exact ih (hagain s t hs hstep) h

theorem exists_iterate (step : σ → ρ ⊕ σ) {α : Type*} {lt : α → α → Prop} (hlt : WellFounded lt)
    (measure : σ → α)
    (hagain : ∀ s t, I s → step s = .inr t → I t ∧ lt (measure t) (measure s)) (hs : I s) :
    ∃ n r, iterate step n s = some r := by
  induction hm : measure s using hlt.induction generalizing s with
  | _ m ih =>
    cases hstep : step s with
    | inl r => exact ⟨1, r, iterate_of_done hstep⟩
    | inr t =>
      obtain ⟨ht, hless⟩ := hagain s t hs hstep
      obtain ⟨n, r, hrun⟩ := ih _ (hm ▸ hless) ht rfl
      exact ⟨n + 1, r, by rw [iterate_of_again hstep, hrun]⟩

theorem exists_iterate_le (step : σ → ρ ⊕ σ) (measure : σ → Nat)
    (hagain : ∀ s t, I s → step s = .inr t → I t ∧ measure t < measure s) (hs : I s)
    (hn : measure s < n) : ∃ r, iterate step n s = some r := by
  induction n generalizing s with
  | zero => omega
  | succ n ih =>
    cases hstep : step s with
    | inl r => exact ⟨r, iterate_of_done hstep⟩
    | inr t =>
      obtain ⟨ht, hless⟩ := hagain s t hs hstep
      rw [iterate_of_again hstep]
      exact ih ht (by omega)

/-- A loop that gets from some states to such states only does not end. -/
theorem iterate_none (hagain : ∀ s, I s → ∃ t, step s = .inr t ∧ I t) (hs : I s) (n : Nat) :
    iterate step n s = none := by
  induction n generalizing s with
  | zero => rfl
  | succ n ih =>
    obtain ⟨t, hstep, ht⟩ := hagain s hs
    rw [iterate_of_again hstep]
    exact ih ht

theorem iterate_none_of_again (h : step s = .inr t) (hnone : ∀ n, iterate step n t = none)
    (n : Nat) : iterate step n s = none := by
  cases n with
  | zero => rfl
  | succ n =>
    rw [iterate_of_again h]
    exact hnone n

end Loops
