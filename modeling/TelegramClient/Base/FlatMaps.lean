import TelegramClient.Base.FlatSets
import TelegramClient.Lib.KeyedSequences

/-! Maps and sets in a sorted deque (`base/flat_map.h`, `base/flat_set.h`), and the finite maps that
they stand for. A map keeps pairs and a set keeps its keys: the searches are the same. -/

namespace TelegramClient.Base

open KeyedSequences WeakOrder

variable {κ α τ : Type*}

theorem Compare.weakOrder (cmp : Compare κ) : WeakOrder cmp.less := ⟨cmp.asymm, cmp.less_or_less⟩

/-- `std::sort` by the keys. Where it leaves elements with the same key is not said. -/
structure StdSort (cmp : Compare κ) (key : α → κ) where
  sort : List α → List α
  perm : ∀ l, (sort l).Perm l
  sorted : ∀ l, KeyedSequences.Sorted key cmp.less (sort l)

/-- The order of a range can be kept among elements with the same key. -/
def stableSort (cmp : Compare κ) (key : α → κ) : StdSort cmp key where
  sort l := l.mergeSort fun a b => !cmp.less (key b) (key a)
  perm l := List.mergeSort_perm l _
  sorted l := by
    have hpairwise := @List.pairwise_mergeSort α (fun a b => !cmp.less (key b) (key a))
      (fun a b c hab hbc => ?_) (fun a b => ?_) l
    · exact hpairwise.imp fun h => by simpa using h
    · by_contra hca
      simp only [Bool.not_eq_true', Bool.not_eq_false] at hab hbc hca
      rcases cmp.less_or_less (key b) hca with hcb | hba
      · rw [hbc] at hcb
        cases hcb
      · rw [hab] at hba
        cases hba
    · cases hba : cmp.less (key b) (key a) with
      | false => rfl
      | true => rw [cmp.asymm hba]; rfl

/-! ### What the two headers share -/

section Deque

variable (cmp : Compare κ) (key : α → κ) (l : List α) (k : κ)

/-- `std::lower_bound`, as a position. -/
def getLowerBound : Nat := (l.takeWhile fun e => cmp.less (key e) k).length

def getUpperBound : Nat := (l.takeWhile fun e => !cmp.less k (key e)).length

def isBeforeFront : Bool := l.isEmpty || l.head?.any fun e => cmp.less k (key e)

def isAfterBack : Bool := l.getLast?.any fun e => cmp.less (key e) k

/-- The key is less than the one at the position. -/
def isLessAt (i : Nat) : Bool := l[i]?.any fun e => cmp.less k (key e)

/-- `none` is `end()`. -/
def findFirst : Option Nat :=
  if isBeforeFront cmp key l k || isAfterBack cmp key l k then none
  else if isLessAt cmp key l k (getLowerBound cmp key l k) then none
  else some (getLowerBound cmp key l k)

def removeOne : List α × Bool :=
  if isBeforeFront cmp key l k || isAfterBack cmp key l k then (l, false)
  else if isLessAt cmp key l k (getLowerBound cmp key l k) then (l, false)
  else (l.eraseIdx (getLowerBound cmp key l k), true)

/-- `erase` of a key. -/
def removeAll : List α × Nat :=
  if isBeforeFront cmp key l k || isAfterBack cmp key l k then (l, 0)
  else
    let first := getLowerBound cmp key l k
    let second := getUpperBound cmp key l k
    if first = second then (l, 0) else (l.take first ++ l.drop second, second - first)

/-- The element that is put where the key is not known, and what happens to the known one. The
position is that of the iterator that is returned. -/
def insertWith (fresh : α) (found : α → α) : List α × Nat × Bool :=
  if isBeforeFront cmp key l k then (fresh :: l, 0, true)
  else if isAfterBack cmp key l k then (l ++ [fresh], l.length, true)
  else
    let i := getLowerBound cmp key l k
    if isLessAt cmp key l k i then (l.insertIdx i fresh, i, true) else (l.modify i found, i, false)

/-- `std::unique`: an element stays when the last one that stayed is less. -/
def finalize : List α := l.destutter fun a b => cmp.less (key a) (key b) = true

end Deque

/-! ### `flat_map` -/

namespace FlatMap

variable (cmp : Compare κ) (l : List (κ × τ)) (k : κ)

def construct (std : StdSort cmp (Prod.fst : κ × τ → κ)) (range : List (κ × τ)) : List (κ × τ) :=
  finalize cmp Prod.fst (std.sort range)

def insert (value : κ × τ) : List (κ × τ) × Nat × Bool :=
  insertWith cmp Prod.fst l value.1 value id

def insertOrAssign (value : τ) : List (κ × τ) × Nat × Bool :=
  insertWith cmp Prod.fst l k (k, value) fun e => (e.1, value)

def tryEmplace (value : τ) : List (κ × τ) × Nat × Bool :=
  insertWith cmp Prod.fst l k (k, value) id

def remove : List (κ × τ) × Bool := removeOne cmp Prod.fst l k

def find : Option Nat := findFirst cmp Prod.fst l k

/-- `operator[]`, with the position of the value that it refers to. -/
def subscript [Inhabited τ] : List (κ × τ) × Nat :=
  let placed := insertWith cmp Prod.fst l k (k, default) id
  (placed.1, placed.2.1)

/-- `map[key] = value`. -/
def assign [Inhabited τ] (value : τ) : List (κ × τ) × Nat :=
  let referred := subscript cmp l k
  (referred.1.modify referred.2 fun e => (e.1, value), referred.2)

def take : List (κ × τ) × Option τ :=
  match find cmp l k with
  | none => (l, none)
  | some i => (l.eraseIdx i, l[i]?.map Prod.snd)

end FlatMap

/-! ### `flat_set` -/

namespace FlatSet

variable (cmp : Compare κ) (l : List κ) (k : κ)

def construct (std : StdSort cmp (id : κ → κ)) (range : List κ) : List κ :=
  finalize cmp id (std.sort range)

def insert : List κ × Nat × Bool := insertWith cmp id l k k id

def remove : List κ × Bool := removeOne cmp id l k

def find : Option Nat := findFirst cmp id l k

def merge (std : StdSort cmp (id : κ → κ)) (range : List κ) : List κ :=
  finalize cmp id (std.sort (l ++ range))

end FlatSet

/-! ### One operation after another -/

inductive Answer (τ : Type*) where
  | nothing
  | placed (position : Nat) (inserted : Bool)
  | removed (any : Bool)
  | count (n : Nat)
  | position (i : Option Nat)
  | taken (value : Option τ)

/-- What the two have in common. `eraseAt` and `eraseRange` are `erase` of one iterator and of
two. -/
inductive Common (κ : Type*) where
  | remove (k : κ)
  | erase (k : κ)
  | eraseAt (position : Nat)
  | eraseRange (position n : Nat)
  | find (k : κ)
  | lowerBound (k : κ)

inductive MapOp (κ τ : Type*) where
  | construct (range : List (κ × τ))
  | insert (value : κ × τ)
  | insertOrAssign (k : κ) (value : τ)
  | tryEmplace (k : κ) (value : τ)
  | subscript (k : κ)
  | assign (k : κ) (value : τ)
  | take (k : κ)
  | common (op : Common κ)

inductive SetOp (κ : Type*) where
  | construct (range : List κ)
  | insert (k : κ)
  | merge (range : List κ)
  | common (op : Common κ)

def Common.run (cmp : Compare κ) (key : α → κ) (l : List α) : Common κ → List α × Answer τ
  | .remove k => let (l, any) := removeOne cmp key l k; (l, .removed any)
  | .erase k => let (l, n) := removeAll cmp key l k; (l, .count n)
  | .eraseAt i => (l.eraseIdx i, .position (some i))
  | .eraseRange i n => (l.take i ++ l.drop (i + n), .position (some i))
  | .find k => (l, .position (findFirst cmp key l k))
  | .lowerBound k => (l, .position (some (getLowerBound cmp key l k)))

def mapStep [Inhabited τ] (cmp : Compare κ) (std : StdSort cmp (Prod.fst : κ × τ → κ))
    (l : List (κ × τ)) : MapOp κ τ → List (κ × τ) × Answer τ
  | .construct range => (FlatMap.construct cmp std range, .nothing)
  | .insert value => let (l, i, inserted) := FlatMap.insert cmp l value; (l, .placed i inserted)
  | .insertOrAssign k value =>
    let (l, i, inserted) := FlatMap.insertOrAssign cmp l k value; (l, .placed i inserted)
  | .tryEmplace k value =>
    let (l, i, inserted) := FlatMap.tryEmplace cmp l k value; (l, .placed i inserted)
  | .subscript k => let (l, i) := FlatMap.subscript cmp l k; (l, .position (some i))
  | .assign k value => let (l, i) := FlatMap.assign cmp l k value; (l, .position (some i))
  | .take k => let (l, value) := FlatMap.take cmp l k; (l, .taken value)
  | .common op => op.run cmp Prod.fst l

def setStep (cmp : Compare κ) (std : StdSort cmp (id : κ → κ)) (l : List κ) :
    SetOp κ → List κ × Answer κ
  | .construct range => (FlatSet.construct cmp std range, .nothing)
  | .insert k => let (l, i, inserted) := FlatSet.insert cmp l k; (l, .placed i inserted)
  | .merge range => (FlatSet.merge cmp l std range, .nothing)
  | .common op => op.run cmp id l

/-- A run of operations, with the answer of each. -/
def answers {σ ω β : Type*} (step : σ → ω → σ × β) (s : σ) : List ω → σ × List β
  | [] => (s, [])
  | op :: ops =>
    let next := step s op
    let last := answers step next.1 ops
    (last.1, next.2 :: last.2)

/-! ### What the operations mean -/

/-- The same run of a relation between the state before, the operation, the state after and the
answer. -/
inductive Runs {σ ω β : Type*} (spec : σ → ω → σ → β → Prop) : σ → List ω → List β → σ → Prop
  | nil (s : σ) : Runs spec s [] [] s
  | cons {s s' s'' : σ} {op : ω} {ops : List ω} {answer : β} {answers : List β}
      (h : spec s op s' answer) (rest : Runs spec s' ops answers s'') :
      Runs spec s (op :: ops) (answer :: answers) s''

section Meaning

variable (cmp : Compare κ)

/-- The finite maps of the keys of an order. -/
abbrev Compare.Map (α : Type*) := Finmap fun _ : cmp.weakOrder.Class => α

variable (key : α → κ) (m m' : cmp.Map α) (k : κ)

abbrev Compare.cls : cmp.weakOrder.Class := cmp.weakOrder.cls k

def Compare.rank : Nat := KeyedSequences.rank cmp.weakOrder key m k

def Compare.has (m : cmp.Map α) (k : κ) : Bool := (m.lookup (cmp.cls k)).isSome

/-- An iterator is the number of smaller keys. -/
def Common.Means : Common κ → Answer τ → Prop
  | .remove k, answer => m' = m.erase (cmp.cls k) ∧ answer = .removed (cmp.has m k)
  | .erase k, answer =>
    m' = m.erase (cmp.cls k) ∧ answer = .count (if cmp.has m k then 1 else 0)
  | .eraseAt i, answer =>
    (∀ e, m.lookup (cmp.cls (key e)) = some e → cmp.rank key m (key e) = i →
      m' = m.erase (cmp.cls (key e))) ∧ answer = .position (some i)
  | .eraseRange i n, answer =>
    (∀ k, m'.lookup (cmp.cls k) = (m.lookup (cmp.cls k)).filter fun e =>
      cmp.rank key m (key e) < i ∨ i + n ≤ cmp.rank key m (key e)) ∧ answer = .position (some i)
  | .find k, answer =>
    m' = m ∧ answer = .position (if cmp.has m k then some (cmp.rank key m k) else none)
  | .lowerBound k, answer => m' = m ∧ answer = .position (some (cmp.rank key m k))

/-- The first value stays, and the one that is there already. -/
def Compare.insertFirst (e : α) : cmp.Map α :=
  if cmp.has m (key e) then m else m.insert (cmp.cls (key e)) e

/-- The last value stays, with the key that was there first. -/
def Compare.insertLast (m : cmp.Map (κ × τ)) (k : κ) (value : τ) : cmp.Map (κ × τ) :=
  m.insert (cmp.cls k) (((m.lookup (cmp.cls k)).map Prod.fst).getD k, value)

end Meaning

def MapMeans [Inhabited τ] (cmp : Compare κ) (m : cmp.Map (κ × τ)) :
    MapOp κ τ → cmp.Map (κ × τ) → Answer τ → Prop
  | .construct range, m', answer =>
    Chosen cmp.weakOrder Prod.fst (· ∈ range) m' ∧ answer = .nothing
  | .insert value, m', answer => m' = cmp.insertFirst Prod.fst m value ∧
    answer = .placed (cmp.rank Prod.fst m value.1) (!cmp.has m value.1)
  | .insertOrAssign k value, m', answer => m' = cmp.insertLast m k value ∧
    answer = .placed (cmp.rank Prod.fst m k) (!cmp.has m k)
  | .tryEmplace k value, m', answer => m' = cmp.insertFirst Prod.fst m (k, value) ∧
    answer = .placed (cmp.rank Prod.fst m k) (!cmp.has m k)
  | .subscript k, m', answer => m' = cmp.insertFirst Prod.fst m (k, default) ∧
    answer = .position (some (cmp.rank Prod.fst m k))
  | .assign k value, m', answer => m' = cmp.insertLast m k value ∧
    answer = .position (some (cmp.rank Prod.fst m k))
  | .take k, m', answer => m' = m.erase (cmp.cls k) ∧
    answer = .taken ((m.lookup (cmp.cls k)).map Prod.snd)
  | .common op, m', answer => op.Means cmp Prod.fst m m' answer

def SetMeans (cmp : Compare κ) (m : cmp.Map κ) : SetOp κ → cmp.Map κ → Answer κ → Prop
  | .construct range, m', answer =>
    Chosen cmp.weakOrder id (· ∈ range) m' ∧ answer = .nothing
  | .insert k, m', answer => m' = cmp.insertFirst id m k ∧
    answer = .placed (cmp.rank id m k) (!cmp.has m k)
  | .merge range, m', answer =>
    Chosen cmp.weakOrder id (fun e => m.lookup (cmp.cls e) = some e ∨ e ∈ range) m' ∧
      answer = .nothing
  | .common op, m', answer => op.Means cmp id m m' answer

/-! ### The searches -/

section Searches

variable {cmp : Compare κ} {key : α → κ} {k : κ} {before after l : List α} {x fresh : α}
  {found : α → α}

theorem isBeforeFront_absent (hbefore : ∀ e ∈ before, cmp.less (key e) k)
    (hafter : ∀ e ∈ after, cmp.less k (key e)) :
    isBeforeFront cmp key (before ++ after) k = before.isEmpty := by
  cases before with
  | nil =>
    cases after with
    | nil => rfl
    | cons a after => exact hafter a List.mem_cons_self
  | cons b before => exact cmp.asymm (hbefore b List.mem_cons_self)

theorem isAfterBack_absent (hbefore : ∀ e ∈ before, cmp.less (key e) k)
    (hafter : ∀ e ∈ after, cmp.less k (key e)) (hne : before ≠ []) :
    isAfterBack cmp key (before ++ after) k = after.isEmpty := by
  show Option.any _ (List.getLast? _) = _
  rw [List.getLast?_append]
  cases hlast : after.getLast? with
  | none =>
    obtain rfl := List.getLast?_eq_none_iff.mp hlast
    rw [Option.none_or, List.getLast?_eq_some_getLast hne]
    exact hbefore _ (List.getLast_mem hne)
  | some a =>
    have ha := List.mem_of_getLast? hlast
    rw [Option.some_or, List.isEmpty_eq_false_iff.mpr (List.ne_nil_of_mem ha)]
    exact cmp.asymm (hafter a ha)

theorem isLessAt_append (hne : after ≠ []) :
    isLessAt cmp key (before ++ after) k before.length = cmp.less k (key (after.head hne)) := by
  show Option.any _ (_[_]?) = _
  rw [List.getElem?_append_right le_rfl, Nat.sub_self, ← List.head?_eq_getElem?,
    List.head?_eq_some_head hne]
  rfl

theorem getLowerBound_append (hbefore : ∀ e ∈ before, cmp.less (key e) k)
    (hafter : ∀ e ∈ after, cmp.less (key e) k = false) :
    getLowerBound cmp key (before ++ after) k = before.length :=
  lower_append hbefore fun e he => hafter e (List.mem_of_mem_head? he)

theorem getUpperBound_append (hbefore : ∀ e ∈ before, cmp.less k (key e) = false)
    (hafter : ∀ e ∈ after, cmp.less k (key e)) :
    getUpperBound cmp key (before ++ after) k = before.length := by
  have hnil : (after.takeWhile fun e => !cmp.less k (key e)) = [] := by
    cases after with
    | nil => rfl
    | cons e after => exact List.takeWhile_cons_of_neg (by simp [hafter e List.mem_cons_self])
  show (List.takeWhile _ _).length = _
  rw [List.takeWhile_append_of_pos (by simpa using hbefore), hnil, List.append_nil]

/-- A key that is there is not outside, and the search ends at it. -/
theorem search_present (hbefore : ∀ e ∈ before, cmp.less (key e) k) (hx : Same cmp.less (key x) k)
    (hafter : ∀ e ∈ after, cmp.less k (key e)) :
    isBeforeFront cmp key (before ++ x :: after) k = false ∧
      isAfterBack cmp key (before ++ x :: after) k = false ∧
      getLowerBound cmp key (before ++ x :: after) k = before.length ∧
      isLessAt cmp key (before ++ x :: after) k before.length = false := by
  have hafter' : ∀ e ∈ x :: after, cmp.less (key e) k = false :=
    List.forall_mem_cons.mpr ⟨hx.1, fun e he => cmp.asymm (hafter e he)⟩
  refine ⟨?_, ?_, getLowerBound_append hbefore hafter', ?_⟩
  · cases before with
    | nil => exact hx.2
    | cons b before => exact cmp.asymm (hbefore b List.mem_cons_self)
  · show Option.any _ (List.getLast? _) = _
    rw [List.getLast?_append, List.getLast?_eq_some_getLast (List.cons_ne_nil x after)]
    exact hafter' _ (List.getLast_mem _)
  · rw [isLessAt_append (List.cons_ne_nil x after)]
    exact hx.2

theorem search_absent (hbefore : ∀ e ∈ before, cmp.less (key e) k)
    (hafter : ∀ e ∈ after, cmp.less k (key e)) (hb : before ≠ []) (ha : after ≠ []) :
    isBeforeFront cmp key (before ++ after) k = false ∧
      isAfterBack cmp key (before ++ after) k = false ∧
      getLowerBound cmp key (before ++ after) k = before.length ∧
      isLessAt cmp key (before ++ after) k before.length = true := by
  refine ⟨?_, ?_, getLowerBound_append hbefore fun e he => cmp.asymm (hafter e he), ?_⟩
  · rw [isBeforeFront_absent hbefore hafter, List.isEmpty_eq_false_iff.mpr hb]
  · rw [isAfterBack_absent hbefore hafter hb, List.isEmpty_eq_false_iff.mpr ha]
  · rw [isLessAt_append ha]
    exact hafter _ (List.head_mem ha)

theorem insertIdx_middle : (before ++ after).insertIdx before.length x = before ++ x :: after := by
  induction before with
  | nil => rfl
  | cons b before ih => exact congrArg (b :: ·) ih

theorem modify_middle : (before ++ x :: after).modify before.length found =
    before ++ found x :: after := by
  induction before with
  | nil => rfl
  | cons b before ih => exact congrArg (b :: ·) ih

theorem eraseIdx_middle : (before ++ x :: after).eraseIdx before.length = before ++ after := by
  induction before with
  | nil => rfl
  | cons b before ih => exact congrArg (b :: ·) ih

theorem insertWith_present (hbefore : ∀ e ∈ before, cmp.less (key e) k)
    (hx : Same cmp.less (key x) k) (hafter : ∀ e ∈ after, cmp.less k (key e)) :
    insertWith cmp key (before ++ x :: after) k fresh found =
      (before ++ found x :: after, before.length, false) := by
  obtain ⟨hfront, hback, hlower, hless⟩ := search_present hbefore hx hafter
  simp only [insertWith, hfront, hback, hlower, hless, Bool.false_eq_true, if_false, modify_middle]

theorem insertWith_absent (hbefore : ∀ e ∈ before, cmp.less (key e) k)
    (hafter : ∀ e ∈ after, cmp.less k (key e)) :
    insertWith cmp key (before ++ after) k fresh found =
      (before ++ fresh :: after, before.length, true) := by
  by_cases hb : before = []
  · have hfront := isBeforeFront_absent hbefore hafter
    subst hb
    rw [insertWith, if_pos (hfront.trans List.isEmpty_nil)]
    rfl
  by_cases ha : after = []
  · have hfront := isBeforeFront_absent hbefore hafter
    have hback := isAfterBack_absent hbefore hafter hb
    subst ha
    rw [List.isEmpty_eq_false_iff.mpr hb] at hfront
    rw [insertWith, hfront, if_neg Bool.false_ne_true,
      if_pos (hback.trans List.isEmpty_nil), List.append_nil]
  · obtain ⟨hfront, hback, hlower, hless⟩ := search_absent hbefore hafter hb ha
    simp only [insertWith, hfront, hback, hlower, hless, Bool.false_eq_true, if_false, if_true,
      insertIdx_middle]

/-- Wherever an absent key would be, it is not found. -/
theorem not_found_absent (hbefore : ∀ e ∈ before, cmp.less (key e) k)
    (hafter : ∀ e ∈ after, cmp.less k (key e)) :
    (isBeforeFront cmp key (before ++ after) k || isAfterBack cmp key (before ++ after) k) = true ∨
      isLessAt cmp key (before ++ after) k (getLowerBound cmp key (before ++ after) k) = true := by
  by_cases hb : before = []
  · have hfront := isBeforeFront_absent hbefore hafter
    rw [List.isEmpty_iff.mpr hb] at hfront
    exact Or.inl (Bool.or_eq_true_iff.mpr (Or.inl hfront))
  by_cases ha : after = []
  · have hback := isAfterBack_absent hbefore hafter hb
    rw [List.isEmpty_iff.mpr ha] at hback
    exact Or.inl (Bool.or_eq_true_iff.mpr (Or.inr hback))
  · obtain ⟨-, -, hlower, hless⟩ := search_absent hbefore hafter hb ha
    rw [hlower]
    exact Or.inr hless

theorem findFirst_absent (hbefore : ∀ e ∈ before, cmp.less (key e) k)
    (hafter : ∀ e ∈ after, cmp.less k (key e)) : findFirst cmp key (before ++ after) k = none := by
  rw [findFirst]
  rcases not_found_absent hbefore hafter with houtside | hless
  · rw [if_pos houtside]
  · rw [if_pos hless, ite_self]

theorem findFirst_present (hbefore : ∀ e ∈ before, cmp.less (key e) k)
    (hx : Same cmp.less (key x) k) (hafter : ∀ e ∈ after, cmp.less k (key e)) :
    findFirst cmp key (before ++ x :: after) k = some before.length := by
  obtain ⟨hfront, hback, hlower, hless⟩ := search_present hbefore hx hafter
  rw [findFirst, hfront, hback, hlower, hless]
  rfl

theorem removeOne_absent (hbefore : ∀ e ∈ before, cmp.less (key e) k)
    (hafter : ∀ e ∈ after, cmp.less k (key e)) :
    removeOne cmp key (before ++ after) k = (before ++ after, false) := by
  rw [removeOne]
  rcases not_found_absent hbefore hafter with houtside | hless
  · rw [if_pos houtside]
  · rw [if_pos hless, ite_self]

theorem removeOne_present (hbefore : ∀ e ∈ before, cmp.less (key e) k)
    (hx : Same cmp.less (key x) k) (hafter : ∀ e ∈ after, cmp.less k (key e)) :
    removeOne cmp key (before ++ x :: after) k = (before ++ after, true) := by
  obtain ⟨hfront, hback, hlower, hless⟩ := search_present hbefore hx hafter
  rw [removeOne, hfront, hback, hlower, hless]
  exact congrArg (·, true) eraseIdx_middle

theorem removeAll_absent (hbefore : ∀ e ∈ before, cmp.less (key e) k)
    (hafter : ∀ e ∈ after, cmp.less k (key e)) :
    removeAll cmp key (before ++ after) k = (before ++ after, 0) := by
  have hlower := getLowerBound_append hbefore fun e he => cmp.asymm (hafter e he)
  have hupper := getUpperBound_append (fun e he => cmp.asymm (hbefore e he)) hafter
  rw [removeAll, hlower, hupper]
  simp

theorem removeAll_present (hbefore : ∀ e ∈ before, cmp.less (key e) k)
    (hx : Same cmp.less (key x) k) (hafter : ∀ e ∈ after, cmp.less k (key e)) :
    removeAll cmp key (before ++ x :: after) k = (before ++ after, 1) := by
  obtain ⟨hfront, hback, hlower, -⟩ := search_present hbefore hx hafter
  have hupper : getUpperBound cmp key (before ++ x :: after) k = before.length + 1 := by
    have hthrough : ∀ e ∈ before ++ [x], cmp.less k (key e) = false := by
      intro e he
      rcases List.mem_append.mp he with he | he
      · exact cmp.asymm (hbefore e he)
      · rw [List.mem_singleton.mp he]
        exact hx.2
    have happend := getUpperBound_append hthrough hafter
    rwa [List.append_assoc, List.length_append] at happend
  rw [removeAll, hfront, hback, hlower, hupper]
  simp

end Searches

/-! ### One operation -/

section Operations

variable {cmp : Compare κ} {key : α → κ} {k : κ} {l before after : List α} {x : α}

theorem has_absent (hbefore : ∀ e ∈ before, cmp.less (key e) k)
    (hafter : ∀ e ∈ after, cmp.less k (key e)) :
    cmp.has (entries cmp.weakOrder key (before ++ after)) k = false := by
  show Option.isSome _ = _
  rw [lookup_absent cmp.weakOrder hbefore hafter]
  rfl

theorem has_present (hbefore : ∀ e ∈ before, cmp.less (key e) k) (hx : Same cmp.less (key x) k) :
    cmp.has (entries cmp.weakOrder key (before ++ x :: after)) k = true := by
  show Option.isSome _ = _
  rw [lookup_present cmp.weakOrder hbefore hx]
  rfl

theorem rank_absent (hl : Ascending key cmp.less (before ++ after))
    (hbefore : ∀ e ∈ before, cmp.less (key e) k) (hafter : ∀ e ∈ after, cmp.less k (key e)) :
    cmp.rank key (entries cmp.weakOrder key (before ++ after)) k = before.length :=
  rank_append cmp.weakOrder hl hbefore fun e he => cmp.asymm (hafter e he)

theorem rank_present (hl : Ascending key cmp.less (before ++ x :: after))
    (hbefore : ∀ e ∈ before, cmp.less (key e) k) (hx : Same cmp.less (key x) k)
    (hafter : ∀ e ∈ after, cmp.less k (key e)) :
    cmp.rank key (entries cmp.weakOrder key (before ++ x :: after)) k = before.length :=
  rank_append cmp.weakOrder hl hbefore
    (List.forall_mem_cons.mpr ⟨hx.1, fun e he => cmp.asymm (hafter e he)⟩)

theorem common_means (hl : Ascending key cmp.less l) (op : Common κ) :
    Ascending key cmp.less (op.run cmp key l : List α × Answer τ).1 ∧
      op.Means cmp key (entries cmp.weakOrder key l)
        (entries cmp.weakOrder key (op.run cmp key l : List α × Answer τ).1)
        (op.run cmp key l : List α × Answer τ).2 := by
  cases op with
  | remove k =>
    cases hl.located cmp.weakOrder k with
    | absent before after hbefore hafter =>
      simp only [Common.run, removeOne_absent hbefore hafter]
      refine ⟨hl, ?_, ?_⟩
      · exact (erase_eq_self _ (lookup_absent cmp.weakOrder hbefore hafter)).symm
      · rw [has_absent hbefore hafter]
    | present before x after hbefore hx hafter =>
      simp only [Common.run, removeOne_present hbefore hx hafter]
      refine ⟨ascending_remove hl, entries_remove cmp.weakOrder hx hbefore hafter, ?_⟩
      rw [has_present hbefore hx]
  | erase k =>
    cases hl.located cmp.weakOrder k with
    | absent before after hbefore hafter =>
      simp only [Common.run, removeAll_absent hbefore hafter]
      refine ⟨hl, ?_, ?_⟩
      · exact (erase_eq_self _ (lookup_absent cmp.weakOrder hbefore hafter)).symm
      · rw [has_absent hbefore hafter]
        rfl
    | present before x after hbefore hx hafter =>
      simp only [Common.run, removeAll_present hbefore hx hafter]
      refine ⟨ascending_remove hl, entries_remove cmp.weakOrder hx hbefore hafter, ?_⟩
      rw [has_present hbefore hx]
      rfl
  | eraseAt i =>
    refine ⟨hl.sublist (List.eraseIdx_sublist l i), fun e hlookup hrank => ?_, rfl⟩
    have hi := ((hl.represents cmp.weakOrder).position i e).mpr ⟨hlookup, hrank⟩
    obtain ⟨before, after, rfl, rfl⟩ := split_of_getElem? hi
    obtain ⟨hbefore, hafter⟩ := hl.around
    have hsame : Same cmp.less (key e) (key e) :=
      ⟨cmp.weakOrder.irrefl _, cmp.weakOrder.irrefl _⟩
    rw [← entries_remove cmp.weakOrder hsame hbefore hafter]
    exact congrArg _ eraseIdx_middle
  | eraseRange i n =>
    have hdrop := List.drop_sublist_drop_left l (Nat.le_add_right i n)
    have hsub := hdrop.append_left (l.take i)
    rw [List.take_append_drop] at hsub
    exact ⟨hl.sublist hsub, lookup_removeRange cmp.weakOrder hl i n, rfl⟩
  | find k =>
    cases hl.located cmp.weakOrder k with
    | absent before after hbefore hafter =>
      refine ⟨hl, rfl, ?_⟩
      rw [has_absent hbefore hafter]
      exact congrArg Answer.position (findFirst_absent hbefore hafter)
    | present before x after hbefore hx hafter =>
      refine ⟨hl, rfl, ?_⟩
      rw [has_present hbefore hx, rank_present hl hbefore hx hafter]
      exact congrArg Answer.position (findFirst_present hbefore hx hafter)
  | lowerBound k =>
    exact ⟨hl, rfl, congrArg (Answer.position ∘ some) (lower_eq_rank cmp.weakOrder hl k)⟩

/-- The element that is put has its place, or the one with its key has it already. -/
theorem insertWith_first (hl : Ascending key cmp.less l) :
    Ascending key cmp.less (insertWith cmp key l (key x) x id).1 ∧
      entries cmp.weakOrder key (insertWith cmp key l (key x) x id).1 =
        cmp.insertFirst key (entries cmp.weakOrder key l) x ∧
      (insertWith cmp key l (key x) x id).2 =
        (cmp.rank key (entries cmp.weakOrder key l) (key x),
          !cmp.has (entries cmp.weakOrder key l) (key x)) := by
  have hsame : Same cmp.less (key x) (key x) :=
    ⟨cmp.weakOrder.irrefl _, cmp.weakOrder.irrefl _⟩
  rw [Compare.insertFirst]
  cases hl.located cmp.weakOrder (key x) with
  | absent before after hbefore hafter =>
    rw [insertWith_absent hbefore hafter, has_absent hbefore hafter, rank_absent hl hbefore hafter]
    refine ⟨ascending_insert cmp.weakOrder hl hsame hbefore hafter, ?_, rfl⟩
    exact entries_insert cmp.weakOrder hsame hbefore
  | present before y after hbefore hy hafter =>
    rw [insertWith_present hbefore hy hafter, has_present hbefore hy,
      rank_present hl hbefore hy hafter]
    exact ⟨hl, rfl, rfl⟩

theorem chosen_finalize (std : StdSort cmp key) (l : List α) {candidate : α → Prop}
    (hmem : ∀ e, e ∈ l ↔ candidate e) :
    Ascending key cmp.less (finalize cmp key (std.sort l)) ∧ Chosen cmp.weakOrder key candidate
      (entries cmp.weakOrder key (finalize cmp key (std.sort l))) := by
  refine ⟨ascending_uniques cmp.weakOrder _, chosen_uniques cmp.weakOrder (std.sorted l) ?_⟩
  exact fun e => (std.perm l).mem_iff.trans (hmem e)

end Operations

section MapOperations

variable {cmp : Compare κ} {k : κ} {value : τ} {l before after : List (κ × τ)} {x : κ × τ}

theorem insertLast_absent (hbefore : ∀ e ∈ before, cmp.less e.1 k)
    (hafter : ∀ e ∈ after, cmp.less k e.1) :
    cmp.insertLast (entries cmp.weakOrder Prod.fst (before ++ after)) k value =
      entries cmp.weakOrder Prod.fst (before ++ (k, value) :: after) := by
  have hk : Same cmp.less k k := ⟨cmp.weakOrder.irrefl _, cmp.weakOrder.irrefl _⟩
  rw [Compare.insertLast, lookup_absent cmp.weakOrder hbefore hafter,
    entries_insert (x := (k, value)) cmp.weakOrder hk hbefore]
  rfl

theorem insertLast_present (hbefore : ∀ e ∈ before, cmp.less e.1 k)
    (hx : Same cmp.less x.1 k) :
    cmp.insertLast (entries cmp.weakOrder Prod.fst (before ++ x :: after)) k value =
      entries cmp.weakOrder Prod.fst (before ++ (x.1, value) :: after) := by
  rw [Compare.insertLast, lookup_present cmp.weakOrder hbefore hx,
    entries_replace (x := x) (y := (x.1, value)) cmp.weakOrder hx hx hbefore]
  rfl

/-- Another value with the same key is in the same place. -/
theorem ascending_replace (hl : Ascending Prod.fst cmp.less (before ++ x :: after)) :
    Ascending Prod.fst cmp.less (before ++ (x.1, value) :: after) := by
  obtain ⟨hbefore, hafter⟩ := hl.around
  exact ascending_insert cmp.weakOrder (ascending_remove hl)
    ⟨cmp.weakOrder.irrefl _, cmp.weakOrder.irrefl _⟩ hbefore hafter

theorem insertOrAssign_means (hl : Ascending Prod.fst cmp.less l) (k : κ) (value : τ) :
    Ascending Prod.fst cmp.less (FlatMap.insertOrAssign cmp l k value).1 ∧
      entries cmp.weakOrder Prod.fst (FlatMap.insertOrAssign cmp l k value).1 =
        cmp.insertLast (entries cmp.weakOrder Prod.fst l) k value ∧
      (FlatMap.insertOrAssign cmp l k value).2 =
        (cmp.rank Prod.fst (entries cmp.weakOrder Prod.fst l) k,
          !cmp.has (entries cmp.weakOrder Prod.fst l) k) := by
  have hk : Same cmp.less k k := ⟨cmp.weakOrder.irrefl _, cmp.weakOrder.irrefl _⟩
  cases hl.located cmp.weakOrder k with
  | absent before after hbefore hafter =>
    rw [FlatMap.insertOrAssign, insertWith_absent hbefore hafter, has_absent hbefore hafter,
      rank_absent hl hbefore hafter, insertLast_absent hbefore hafter]
    exact ⟨ascending_insert (x := (k, value)) cmp.weakOrder hl hk hbefore hafter, rfl, rfl⟩
  | present before x after hbefore hx hafter =>
    rw [FlatMap.insertOrAssign, insertWith_present hbefore hx hafter, has_present hbefore hx,
      rank_present hl hbefore hx hafter, insertLast_present hbefore hx]
    exact ⟨ascending_replace hl, rfl, rfl⟩

theorem assign_means [Inhabited τ] (hl : Ascending Prod.fst cmp.less l) (k : κ) (value : τ) :
    Ascending Prod.fst cmp.less (FlatMap.assign cmp l k value).1 ∧
      entries cmp.weakOrder Prod.fst (FlatMap.assign cmp l k value).1 =
        cmp.insertLast (entries cmp.weakOrder Prod.fst l) k value ∧
      (FlatMap.assign cmp l k value).2 =
        cmp.rank Prod.fst (entries cmp.weakOrder Prod.fst l) k := by
  have hk : Same cmp.less k k := ⟨cmp.weakOrder.irrefl _, cmp.weakOrder.irrefl _⟩
  cases hl.located cmp.weakOrder k with
  | absent before after hbefore hafter =>
    simp only [FlatMap.assign, FlatMap.subscript, insertWith_absent hbefore hafter, modify_middle]
    rw [rank_absent hl hbefore hafter, insertLast_absent hbefore hafter]
    exact ⟨ascending_insert (x := (k, value)) cmp.weakOrder hl hk hbefore hafter, rfl, rfl⟩
  | present before x after hbefore hx hafter =>
    simp only [FlatMap.assign, FlatMap.subscript, insertWith_present hbefore hx hafter,
      modify_middle, id]
    rw [rank_present hl hbefore hx hafter, insertLast_present hbefore hx]
    exact ⟨ascending_replace hl, rfl, rfl⟩

theorem take_means (hl : Ascending Prod.fst cmp.less l) (k : κ) :
    Ascending Prod.fst cmp.less (FlatMap.take cmp l k).1 ∧
      entries cmp.weakOrder Prod.fst (FlatMap.take cmp l k).1 =
        (entries cmp.weakOrder Prod.fst l).erase (cmp.cls k) ∧
      (FlatMap.take cmp l k).2 =
        ((entries cmp.weakOrder Prod.fst l).lookup (cmp.cls k)).map Prod.snd := by
  cases hl.located cmp.weakOrder k with
  | absent before after hbefore hafter =>
    have hlookup := lookup_absent cmp.weakOrder hbefore hafter
    simp only [FlatMap.take, FlatMap.find, findFirst_absent hbefore hafter]
    exact ⟨hl, (erase_eq_self _ hlookup).symm, by rw [hlookup]; rfl⟩
  | present before x after hbefore hx hafter =>
    simp only [FlatMap.take, FlatMap.find, findFirst_present hbefore hx hafter, eraseIdx_middle]
    refine ⟨ascending_remove hl, entries_remove cmp.weakOrder hx hbefore hafter, ?_⟩
    rw [lookup_present cmp.weakOrder hbefore hx, List.getElem?_append_right le_rfl, Nat.sub_self]
    rfl

theorem mapStep_means [Inhabited τ] (std : StdSort cmp (Prod.fst : κ × τ → κ))
    (hl : Ascending Prod.fst cmp.less l) (op : MapOp κ τ) :
    Ascending Prod.fst cmp.less (mapStep cmp std l op).1 ∧
      MapMeans cmp (entries cmp.weakOrder Prod.fst l) op
        (entries cmp.weakOrder Prod.fst (mapStep cmp std l op).1) (mapStep cmp std l op).2 := by
  cases op with
  | construct range =>
    obtain ⟨hascending, hchosen⟩ := chosen_finalize std range fun e => Iff.rfl
    exact ⟨hascending, hchosen, rfl⟩
  | insert value =>
    obtain ⟨hascending, hentries, hplaced⟩ := insertWith_first (x := value) hl
    exact ⟨hascending, hentries, congrArg (fun p : Nat × Bool => Answer.placed p.1 p.2) hplaced⟩
  | insertOrAssign k value =>
    obtain ⟨hascending, hentries, hplaced⟩ := insertOrAssign_means hl k value
    exact ⟨hascending, hentries, congrArg (fun p : Nat × Bool => Answer.placed p.1 p.2) hplaced⟩
  | tryEmplace k value =>
    obtain ⟨hascending, hentries, hplaced⟩ := insertWith_first (x := (k, value)) hl
    exact ⟨hascending, hentries, congrArg (fun p : Nat × Bool => Answer.placed p.1 p.2) hplaced⟩
  | subscript k =>
    obtain ⟨hascending, hentries, hplaced⟩ := insertWith_first (x := (k, default)) hl
    exact ⟨hascending, hentries, congrArg (fun p : Nat × Bool => Answer.position (some p.1)) hplaced⟩
  | assign k value =>
    obtain ⟨hascending, hentries, hplaced⟩ := assign_means hl k value
    exact ⟨hascending, hentries, congrArg (Answer.position ∘ some) hplaced⟩
  | take k =>
    obtain ⟨hascending, hentries, htaken⟩ := take_means hl k
    exact ⟨hascending, hentries, congrArg Answer.taken htaken⟩
  | common op => exact common_means hl op

end MapOperations

theorem setStep_means {cmp : Compare κ} (std : StdSort cmp (id : κ → κ)) {l : List κ}
    (hl : Ascending id cmp.less l) (op : SetOp κ) :
    Ascending id cmp.less (setStep cmp std l op).1 ∧
      SetMeans cmp (entries cmp.weakOrder id l) op
        (entries cmp.weakOrder id (setStep cmp std l op).1) (setStep cmp std l op).2 := by
  cases op with
  | construct range =>
    obtain ⟨hascending, hchosen⟩ := chosen_finalize std range fun e => Iff.rfl
    exact ⟨hascending, hchosen, rfl⟩
  | insert k =>
    obtain ⟨hascending, hentries, hplaced⟩ := insertWith_first (x := k) hl
    exact ⟨hascending, hentries, congrArg (fun p : Nat × Bool => Answer.placed p.1 p.2) hplaced⟩
  | merge range =>
    obtain ⟨hascending, hchosen⟩ := chosen_finalize std (l ++ range) fun e =>
      List.mem_append.trans (or_congr_left (lookup_eq_some_iff_mem cmp.weakOrder hl).symm)
    exact ⟨hascending, hchosen, rfl⟩
  | common op => exact common_means hl op

/-! ### Runs -/

theorem runs_of_step {σ ω β μ : Type*} {step : σ → ω → σ × β} {spec : μ → ω → μ → β → Prop}
    (abs : σ → μ) {inv : σ → Prop}
    (hstep : ∀ s op, inv s → inv (step s op).1 ∧ spec (abs s) op (abs (step s op).1) (step s op).2)
    {s : σ} (hs : inv s) (ops : List ω) :
    inv (answers step s ops).1 ∧
      Runs spec (abs s) ops (answers step s ops).2 (abs (answers step s ops).1) := by
  induction ops generalizing s with
  | nil => exact ⟨hs, .nil _⟩
  | cons op ops ih =>
    obtain ⟨hnext, hspec⟩ := hstep s op hs
    obtain ⟨hlast, hruns⟩ := ih hnext
    exact ⟨hlast, .cons hspec hruns⟩

/-- After every run of operations a map and a set are in the strict order of their keys, and are
the finite map that the same operations make: the answers are its answers, and the element at a
position is the one with so many smaller keys. -/
theorem flat_refines [Inhabited τ] (cmp : Compare κ) (stdMap : StdSort cmp (Prod.fst : κ × τ → κ))
    (stdSet : StdSort cmp (id : κ → κ)) :
    (∀ ops : List (MapOp κ τ), ∃ m : cmp.Map (κ × τ),
      Runs (MapMeans cmp) ∅ ops (answers (mapStep cmp stdMap) [] ops).2 m ∧
        Represents cmp.weakOrder Prod.fst (answers (mapStep cmp stdMap) [] ops).1 m) ∧
    ∀ ops : List (SetOp κ), ∃ m : cmp.Map κ,
      Runs (SetMeans cmp) ∅ ops (answers (setStep cmp stdSet) [] ops).2 m ∧
        Represents cmp.weakOrder id (answers (setStep cmp stdSet) [] ops).1 m := by
  constructor
  · intro ops
    have hnil : Ascending (Prod.fst : κ × τ → κ) cmp.less [] := List.Pairwise.nil
    obtain ⟨hascending, hruns⟩ := runs_of_step (entries cmp.weakOrder Prod.fst)
      (fun l op (hl : Ascending Prod.fst cmp.less l) => mapStep_means stdMap hl op) hnil ops
    exact ⟨_, hruns, hascending.represents cmp.weakOrder⟩
  · intro ops
    have hnil : Ascending id cmp.less [] := List.Pairwise.nil
    obtain ⟨hascending, hruns⟩ := runs_of_step (entries cmp.weakOrder id)
      (fun l op (hl : Ascending id cmp.less l) => setStep_means stdSet hl op) hnil ops
    exact ⟨_, hruns, hascending.represents cmp.weakOrder⟩

example : (answers (setStep .ofInt (stableSort .ofInt id)) []
    [.insert 0, .insert 5, .insert 4, .insert 2, .insert 3, .insert 4]).1 = [0, 2, 3, 4, 5] := by
  decide

end TelegramClient.Base
