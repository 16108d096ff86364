import Mathlib

/-! What a log does to the value of one key: some of its entries set it, others
touch it where it is there. A later touch overwrites an earlier one. -/

namespace KeyedLog

inductive Change (β τ : Type*) where
  | set (value : Option β)
  | touch (t : τ)

variable {β τ : Type*} (touch : τ → β → β)

def Change.apply : Change β τ → Option β → Option β
  | .set value, _ => value
  | .touch t, o => o.map (touch t)

def changes (cs : List (Change β τ)) (o : Option β) : Option β :=
  cs.foldl (fun o c => c.apply touch o) o

@[simp] theorem changes_nil (o : Option β) : changes touch [] o = o := rfl

@[simp] theorem changes_cons (c : Change β τ) (cs : List (Change β τ)) (o : Option β) :
    changes touch (c :: cs) o = changes touch cs (c.apply touch o) := rfl

@[simp] theorem changes_append (cs ds : List (Change β τ)) (o : Option β) :
    changes touch (cs ++ ds) o = changes touch ds (changes touch cs o) :=
  List.foldl_append

theorem changes_of_set {cs : List (Change β τ)} {value : Option β} (h : .set value ∈ cs)
    (o o' : Option β) : changes touch cs o = changes touch cs o' := by
  induction cs generalizing o o' with
  | nil => cases h
  | cons c cs ih =>
    rcases List.mem_cons.mp h with rfl | h
    · rfl
    · exact ih h _ _

theorem changes_of_touches {cs : List (Change β τ)} (h : ∀ value, .set value ∉ cs) :
    changes touch cs none = none := by
  induction cs with
  | nil => rfl
  | cons c cs ih =>
    cases c with
    | set value => exact absurd List.mem_cons_self (h value)
    | touch t => exact ih fun value hv => h value (List.mem_cons_of_mem _ hv)

variable {touch}

theorem map_touch_changes (htouch : ∀ a b v, touch a (touch b v) = touch a v)
    {cs : List (Change β τ)} (h : ∀ value, .set value ∉ cs) (t : τ) (o : Option β) :
    (changes touch cs o).map (touch t) = o.map (touch t) := by
  induction cs generalizing o with
  | nil => rfl
  | cons c cs ih =>
    cases c with
    | set value => exact absurd List.mem_cons_self (h value)
    | touch s =>
      rw [changes_cons, ih fun value hv => h value (List.mem_cons_of_mem _ hv), Change.apply,
        Option.map_map]
      congr 1
      funext v
      exact htouch t s v

end KeyedLog
