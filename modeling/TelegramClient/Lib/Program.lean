import Mathlib

/-! Programs over a state that may stop with an error. `Ends` is what is known of
the outcome of one call, `Follows` says that a program keeps an invariant and gets
from state to state by the steps of a relation. -/

namespace Program

variable {σ ε α β : Type}

def Ends (Q : α → σ → Prop) (E : ε → Prop) : Except ε (α × σ) → Prop
  | .ok (a, s) => Q a s
  | .error e => E e

variable {Q Q' : α → σ → Prop} {E E' : ε → Prop} {s t : σ}

@[simp] theorem ends_ok {a : α} : Ends Q E (.ok (a, s)) ↔ Q a s := .rfl

@[simp] theorem ends_error {e : ε} : Ends Q E (.error e) ↔ E e := .rfl

theorem Ends.mono {r : Except ε (α × σ)} (h : Ends Q E r) (hQ : ∀ a s, Q a s → Q' a s)
    (hE : ∀ e, E e → E' e) : Ends Q' E' r := by
  cases r with
  | error e => exact hE e h
  | ok p => exact hQ _ _ h

theorem Ends.imp {r : Except ε (α × σ)} (h : Ends Q E r) (hQ : ∀ a s, Q a s → Q' a s) :
    Ends Q' E r := h.mono hQ fun _ he => he

theorem Ends.and {r : Except ε (α × σ)} (h : Ends Q E r) (h' : Ends Q' E' r) :
    Ends (fun a s => Q a s ∧ Q' a s) E r := by
  cases r with
  | error e => exact h
  | ok p => exact ⟨h, h'⟩

theorem Ends.exists_ok {r : Except ε (α × σ)} (h : Ends Q (fun _ => False) r) :
    ∃ a s, r = .ok (a, s) ∧ Q a s := by
  cases r with
  | error e => exact h.elim
  | ok p => exact ⟨p.1, p.2, rfl, h⟩

@[simp] theorem ends_pure {a : α} :
    Ends Q E ((pure a : StateT σ (Except ε) α) s) ↔ Q a s := .rfl

@[simp] theorem ends_bind {m : StateT σ (Except ε) α} {f : α → StateT σ (Except ε) β}
    {Q : β → σ → Prop} :
    Ends Q E ((m >>= f) s) ↔ Ends (fun a t => Ends Q E (f a t)) E (m s) := by
  simp only [bind, StateT.bind, Except.bind]
  cases m s <;> rfl

@[simp] theorem ends_map {m : StateT σ (Except ε) α} {f : α → β} {Q : β → σ → Prop} :
    Ends Q E ((f <$> m) s) ↔ Ends (fun a t => Q (f a) t) E (m s) := by
  simp only [Functor.map, StateT.map, bind, Except.bind]
  cases m s <;> rfl

@[simp] theorem ends_discard {m : StateT σ (Except ε) α} {Q : PUnit → σ → Prop} :
    Ends Q E ((discard m) s) ↔ Ends (fun _ t => Q ⟨⟩ t) E (m s) := ends_map

@[simp] theorem ends_get {Q : σ → σ → Prop} :
    Ends Q E ((get : StateT σ (Except ε) σ) s) ↔ Q s s := .rfl

@[simp] theorem ends_set {Q : PUnit → σ → Prop} :
    Ends Q E ((set t : StateT σ (Except ε) PUnit) s) ↔ Q ⟨⟩ t := .rfl

@[simp] theorem ends_modify {Q : PUnit → σ → Prop} {f : σ → σ} :
    Ends Q E ((modify f : StateT σ (Except ε) PUnit) s) ↔ Q ⟨⟩ (f s) := .rfl

@[simp] theorem ends_throw {e : ε} :
    Ends Q E ((throw e : StateT σ (Except ε) α) s) ↔ E e := .rfl

theorem ends_lift {x : Except ε α} :
    Ends Q E ((liftM x : StateT σ (Except ε) α) s) ↔
      (∀ a, x = .ok a → Q a s) ∧ ∀ e, x = .error e → E e := by
  cases x with
  | error e =>
    refine ⟨fun h => ⟨fun a ha => (by cases ha), fun e' he => ?_⟩, fun h => h.2 e rfl⟩
    cases he
    exact h
  | ok a =>
    refine ⟨fun h => ⟨fun b hb => ?_, fun e he => (by cases he)⟩, fun h => h.1 a rfl⟩
    cases hb
    exact h

/-- What is known of the outcome of a call that has no state. -/
def Returns (P : α → Prop) (E : ε → Prop) : Except ε α → Prop
  | .ok a => P a
  | .error e => E e

section

variable {P P' : α → Prop}

theorem Returns.imp {r : Except ε α} (h : Returns P E r) (hP : ∀ a, P a → P' a) :
    Returns P' E r := by
  cases r with
  | error e => exact h
  | ok a => exact hP a h

theorem returns_bind {x : Except ε α} {f : α → Except ε β} {P : β → Prop} :
    Returns P E (x >>= f) ↔ Returns (fun a => Returns P E (f a)) E x := by
  cases x <;> rfl

theorem ends_lift_iff {x : Except ε α} :
    Ends Q E ((liftM x : StateT σ (Except ε) α) s) ↔ Returns (fun a => Q a s) E x := by
  cases x <;> rfl

end

/-! ### Invariants and steps -/

section

variable {I : σ → Prop} {R : σ → σ → Prop}

/-- From a state with the invariant the program stops as allowed or ends in a
state with the invariant that steps lead to. -/
def Follows (I : σ → Prop) (R : σ → σ → Prop) (E : ε → Prop) (m : StateT σ (Except ε) α) : Prop :=
  ∀ s, I s → Ends (fun _ t => I t ∧ Relation.ReflTransGen R s t) E (m s)

theorem Follows.pure (a : α) : Follows I R E (pure a : StateT σ (Except ε) α) :=
  fun _ hs => ⟨hs, .refl⟩

theorem Follows.bind {m : StateT σ (Except ε) α} {f : α → StateT σ (Except ε) β}
    (hm : Follows I R E m) (hf : ∀ a, Follows I R E (f a)) : Follows I R E (m >>= f) := by
  intro s hs
  rw [ends_bind]
  refine (hm s hs).imp fun a t ht => ?_
  exact (hf a t ht.1).imp fun b u hu => ⟨hu.1, ht.2.trans hu.2⟩

theorem Follows.discard {m : StateT σ (Except ε) α} (hm : Follows I R E m) :
    Follows I R E (discard m) :=
  fun s hs => ends_discard.mpr (hm s hs)

theorem Follows.get : Follows I R E (get : StateT σ (Except ε) σ) := fun _ hs => ⟨hs, .refl⟩

theorem Follows.get_bind {f : σ → StateT σ (Except ε) β}
    (hf : ∀ s, I s → Ends (fun _ t => I t ∧ Relation.ReflTransGen R s t) E (f s s)) :
    Follows I R E (MonadState.get >>= f) :=
  fun s hs => ends_bind.mpr (hf s hs)

theorem Follows.throw {e : ε} (he : E e) : Follows I R E (throw e : StateT σ (Except ε) α) :=
  fun _ _ => he

theorem Follows.modify {f : σ → σ} (hI : ∀ s, I s → I (f s)) (hR : ∀ s, I s → R s (f s)) :
    Follows I R E (modify f : StateT σ (Except ε) PUnit) :=
  fun s hs => ⟨hI s hs, .single (hR s hs)⟩

theorem Follows.forM {γ : Type} {f : γ → StateT σ (Except ε) PUnit} (xs : List γ)
    (hf : ∀ x, Follows I R E (f x)) : Follows I R E (xs.forM f) := by
  induction xs with
  | nil => exact .pure _
  | cons x xs ih => exact (hf x).bind fun _ => ih

theorem keeps_of_steps {J : σ → Prop} (hR : ∀ s t, R s t → J s → J t)
    (h : Relation.ReflTransGen R s t) (hs : J s) : J t := by
  induction h with
  | refl => exact hs
  | tail _ hst ih => exact hR _ _ hst ih

end

end Program
