import Mathlib

/-! Two deterministic systems that answer the same calls: when single calls agree,
so do whole runs. -/

namespace Simulation

variable {ε α β γ κ : Type*}

/-- Both sides stop for the same reason, or give the same answer in related states. -/
inductive Agree (R : α → β → Prop) : Except ε (γ × α) → Except ε (γ × β) → Prop
  | error (stop : ε) : Agree R (.error stop) (.error stop)
  | ok (answer : γ) {a : α} {b : β} (h : R a b) : Agree R (.ok (answer, a)) (.ok (answer, b))

variable {R : α → β → Prop}

theorem Agree.answers {x : Except ε (γ × α)} {y : Except ε (γ × β)} (h : Agree R x y) :
    x.map Prod.fst = y.map Prod.fst := by
  cases h <;> rfl

theorem Agree.map {δ : Type*} {x : Except ε (γ × α)} {y : Except ε (γ × β)} (h : Agree R x y)
    (f : γ → δ) : Agree R (x.map (Prod.map f id)) (y.map (Prod.map f id)) := by
  cases h with
  | error stop => exact .error stop
  | ok answer h => exact .ok (f answer) h

def run (step : α → κ → Except ε (γ × α)) : α → List κ → Except ε (List γ × α)
  | a, [] => .ok ([], a)
  | a, c :: cs =>
    match step a c with
    | .error stop => .error stop
    | .ok (answer, a) =>
      match run step a cs with
      | .error stop => .error stop
      | .ok (answers, a) => .ok (answer :: answers, a)

theorem agree_run {stepA : α → κ → Except ε (γ × α)} {stepB : β → κ → Except ε (γ × β)}
    (hstep : ∀ a b, R a b → ∀ c, Agree R (stepA a c) (stepB b c)) {a : α} {b : β} (h : R a b)
    (cs : List κ) : Agree R (run stepA a cs) (run stepB b cs) := by
  induction cs generalizing a b with
  | nil => exact .ok [] h
  | cons c cs ih =>
    have hc := hstep a b h c
    rw [run, run]
    generalize stepA a c = x, stepB b c = y at hc ⊢
    cases hc with
    | error stop => exact .error stop
    | @ok answer a' b' h' =>
      have hi := ih h'
      simp only
      generalize run stepA a' cs = x, run stepB b' cs = y at hi ⊢
      cases hi with
      | error stop => exact .error stop
      | ok answers h'' => exact .ok (answer :: answers) h''

end Simulation
