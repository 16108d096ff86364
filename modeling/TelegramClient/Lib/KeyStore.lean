import Mathlib

/-! Values under keys, some of which are queued to be removed. -/

structure KeyStore (κ ν : Type*) where
  value : κ → Option ν
  queue : Set κ

namespace KeyStore

variable {κ ν γ : Type*} {s t u : KeyStore κ ν} {keys : Set κ}

section

variable [DecidableEq κ]

def drop (s : KeyStore κ ν) (key : κ) : KeyStore κ ν :=
  { s with value := Function.update s.value key none }

/-- A key that is stored anew is not to be removed any more. -/
def keep (s : KeyStore κ ν) (key : κ) (v : ν) : KeyStore κ ν where
  value := Function.update s.value key (some v)
  queue := s.queue \ {key}

theorem drop_of_none {key : κ} (h : s.value key = none) : s.drop key = s := by
  rw [drop, ← h, Function.update_eq_self]

def dropAll (s : KeyStore κ ν) (list : List κ) : KeyStore κ ν := list.foldl drop s

theorem dropAll_queue (s : KeyStore κ ν) (list : List κ) : (s.dropAll list).queue = s.queue := by
  induction list generalizing s with
  | nil => rfl
  | cons key list ih => exact ih (s.drop key)

theorem dropAll_value (s : KeyStore κ ν) (list : List κ) (key : κ) :
    (s.dropAll list).value key = if key ∈ list then none else s.value key := by
  induction list generalizing s with
  | nil => rfl
  | cons k list ih =>
    rw [dropAll, List.foldl_cons]
    refine (ih (s.drop k)).trans ?_
    by_cases hk : key = k
    · subst hk
      simp [drop]
    · simp [drop, hk]

end

/-- Some of these keys were removed, and the others are queued. -/
structure Cleans (keys : Set κ) (s t : KeyStore κ ν) : Prop where
  value : ∀ key, t.value key = s.value key ∨ key ∈ keys ∧ t.value key = none
  queue : t.queue ⊆ keys
  done : ∀ key ∈ keys, key ∈ t.queue ∨ t.value key = none

theorem Cleans.refl (s : KeyStore κ ν) : Cleans s.queue s s :=
  ⟨fun _ => .inl rfl, subset_rfl, fun _ hkey => .inl hkey⟩

theorem Cleans.trans (h : Cleans keys s t) (h' : Cleans t.queue t u) : Cleans keys s u := by
  refine ⟨fun key => ?_, h'.queue.trans h.queue, fun key hkey => ?_⟩
  · rcases h'.value key with heq | ⟨hmem, hnone⟩
    · rw [heq]
      exact h.value key
    · exact .inr ⟨h.queue hmem, hnone⟩
  · rcases h.done key hkey with hmem | hnone
    · exact h'.done key hmem
    · refine .inr ?_
      rcases h'.value key with heq | ⟨-, hnone'⟩
      · rw [heq, hnone]
      · exact hnone'

theorem cleans_dropAll [DecidableEq κ] (s : KeyStore κ ν) (keys : Set κ) (list : List κ)
    (queue : Set κ) (hqueue : queue ⊆ keys) (hlist : ∀ key ∈ list, key ∈ keys)
    (hkeys : ∀ key ∈ keys, key ∈ queue ∨ key ∈ list) :
    Cleans keys s { s.dropAll list with queue } := by
  refine ⟨fun key => ?_, hqueue, fun key hkey => ?_⟩
  · by_cases hmem : key ∈ list
    · exact .inr ⟨hlist key hmem, by rw [dropAll_value, if_pos hmem]⟩
    · exact .inl (by rw [dropAll_value, if_neg hmem])
  · rcases hkeys key hkey with h | h
    · exact .inl h
    · exact .inr (by rw [dropAll_value, if_pos h])

/-! ### Runs -/

section

variable (Does : γ → KeyStore κ ν → KeyStore κ ν → Prop)

def Runs : List γ → KeyStore κ ν → KeyStore κ ν → Prop
  | [], s, t => t = s
  | call :: calls, s, t => ∃ u, Does call s u ∧ Runs calls u t

/-- Between two sessions only the values stay. -/
def Sessions : List (List γ) → (κ → Option ν) → (κ → Option ν) → Prop
  | [], v, w => w = v
  | calls :: sessions, v, w =>
    ∃ t, Runs Does calls { value := v, queue := ∅ } t ∧ Sessions sessions t.value w

end

end KeyStore
