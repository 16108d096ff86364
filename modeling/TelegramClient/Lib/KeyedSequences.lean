import Mathlib

/-! Sequences in the order of their keys, as finite maps from keys. Keys are compared by a weak
order, and keys of which neither is less are one key of the map. -/

structure WeakOrder {κ : Type*} (less : κ → κ → Bool) : Prop where
  asymm : ∀ {a b}, less a b → less b a = false
  less_or_less : ∀ {a c} b, less a c → less a b ∨ less b c

namespace WeakOrder

variable {κ : Type*} {less : κ → κ → Bool} (h : WeakOrder less) {a b c : κ}

def Same (less : κ → κ → Bool) (a b : κ) : Prop := less a b = false ∧ less b a = false

instance (less : κ → κ → Bool) (a b : κ) : Decidable (Same less a b) :=
  inferInstanceAs (Decidable (_ ∧ _))

include h in
theorem less_trans (hab : less a b) (hbc : less b c) : less a c := by
  rcases h.less_or_less c hab with hac | hcb
  · exact hac
  · rw [h.asymm hbc] at hcb
    cases hcb

include h in
theorem less_of_same_of_less (hab : Same less a b) (hbc : less b c) : less a c :=
  (h.less_or_less a hbc).resolve_left fun hba => by
    rw [hab.2] at hba
    cases hba

include h in
theorem less_of_less_of_same (hab : less a b) (hbc : Same less b c) : less a c :=
  (h.less_or_less c hab).resolve_right fun hcb => by
    rw [hbc.2] at hcb
    cases hcb

include h in
theorem irrefl (a : κ) : less a a = false := by
  cases haa : less a a with
  | false => rfl
  | true => exact haa.symm.trans (h.asymm haa)

theorem Same.symm (hab : Same less a b) : Same less b a := ⟨hab.2, hab.1⟩

theorem not_same_of_less (hab : less a b) : ¬Same less a b := by
  rintro ⟨hfalse, -⟩
  rw [hab] at hfalse
  cases hfalse

include h in
theorem Same.trans (hab : Same less a b) (hbc : Same less b c) : Same less a c := by
  constructor
  · by_contra hac
    have hbc' := h.less_of_same_of_less hab.symm (by simpa using hac)
    exact not_same_of_less hbc' hbc
  · by_contra hca
    have hcb := h.less_of_less_of_same (by simpa using hca) hab
    exact not_same_of_less hcb hbc.symm

def setoid : Setoid κ where
  r := Same less
  iseqv := ⟨fun a => ⟨h.irrefl a, h.irrefl a⟩, Same.symm, fun hab hbc => hab.trans h hbc⟩

/-- A key of the map. -/
def Class : Type _ := Quotient h.setoid

def cls (k : κ) : h.Class := Quotient.mk h.setoid k

instance : DecidableEq h.Class :=
  @Quotient.decidableEq κ h.setoid fun a b => inferInstanceAs (Decidable (Same less a b))

theorem cls_eq_iff : h.cls a = h.cls b ↔ Same less a b := Quotient.eq (r := h.setoid)

end WeakOrder

namespace KeyedSequences

open WeakOrder

variable {α κ : Type*} {less : κ → κ → Bool} (h : WeakOrder less) (key : α → κ)

/-- The elements with a key that is less. -/
def lower (less : κ → κ → Bool) (l : List α) (k : κ) : Nat :=
  (l.takeWhile fun e => less (key e) k).length

def Ascending (less : κ → κ → Bool) (l : List α) : Prop :=
  l.Pairwise fun a b => less (key a) (key b) = true

/-- The finite map that a sequence stands for. -/
def entries (l : List α) : Finmap fun _ : h.Class => α :=
  (l.map fun e => (⟨h.cls (key e), e⟩ : Sigma fun _ : h.Class => α)).toFinmap

/-- How many keys of a map are less. -/
def rank (m : Finmap fun _ : h.Class => α) (k : κ) : Nat :=
  m.entries.countP fun e => less (key e.2) k = true

/-- A sequence and the map that it stands for. -/
structure Represents (l : List α) (m : Finmap fun _ : h.Class => α) : Prop where
  ascending : Ascending key less l
  lookup : ∀ k, m.lookup (h.cls k) = l.find? fun e => Same less (key e) k
  position : ∀ i e, l[i]? = some e ↔ m.lookup (h.cls (key e)) = some e ∧ rank h key m (key e) = i

/-- Where a key is in an ascending sequence, or where its place is. -/
inductive Located (less : κ → κ → Bool) (k : κ) : List α → Prop
  | absent (before after : List α) (hbefore : ∀ e ∈ before, less (key e) k)
      (hafter : ∀ e ∈ after, less k (key e)) : Located less k (before ++ after)
  | present (before : List α) (x : α) (after : List α) (hbefore : ∀ e ∈ before, less (key e) k)
      (hx : Same less (key x) k) (hafter : ∀ e ∈ after, less k (key e)) :
      Located less k (before ++ x :: after)

variable {key} {l before after : List α} {k : κ} {x y : α} {i : Nat}
  {m : Finmap fun _ : h.Class => α}

theorem ascending_append_iff : Ascending key less (before ++ after) ↔
    Ascending key less before ∧ Ascending key less after ∧
      ∀ a ∈ before, ∀ b ∈ after, less (key a) (key b) = true :=
  List.pairwise_append

theorem ascending_cons_iff : Ascending key less (x :: after) ↔
    (∀ e ∈ after, less (key x) (key e) = true) ∧ Ascending key less after :=
  List.pairwise_cons

include h in
theorem Ascending.located (hl : Ascending key less l) (k : κ) : Located key less k l := by
  induction l with
  | nil => exact .absent [] [] (by simp) (by simp)
  | cons e l ih =>
    obtain ⟨he, hl⟩ := ascending_cons_iff.mp hl
    cases hek : less (key e) k with
    | true =>
      cases ih hl with
      | absent before after hbefore hafter =>
        exact .absent (e :: before) after (List.forall_mem_cons.mpr ⟨hek, hbefore⟩) hafter
      | present before x after hbefore hx hafter =>
        exact .present (e :: before) x after (List.forall_mem_cons.mpr ⟨hek, hbefore⟩) hx hafter
    | false =>
      cases hke : less k (key e) with
      | true =>
        refine .absent [] (e :: l) (by simp) (List.forall_mem_cons.mpr ⟨hke, fun b hb => ?_⟩)
        exact h.less_trans hke (he b hb)
      | false =>
        refine .present [] e l (by simp) ⟨hek, hke⟩ fun b hb => ?_
        exact h.less_of_same_of_less ⟨hke, hek⟩ (he b hb)

theorem lower_append (hbefore : ∀ e ∈ before, less (key e) k)
    (hafter : ∀ e ∈ after.head?, less (key e) k = false) :
    lower key less (before ++ after) k = before.length := by
  have hnil : (after.takeWhile fun e => less (key e) k) = [] := by
    cases after with
    | nil => rfl
    | cons e after => exact List.takeWhile_cons_of_neg (by simp [hafter e rfl])
  show (List.takeWhile _ _).length = _
  rw [List.takeWhile_append_of_pos hbefore, hnil, List.append_nil]

/-! ### The sequence stays ascending -/

include h in
theorem ascending_insert (hl : Ascending key less (before ++ after)) (hx : Same less (key x) k)
    (hbefore : ∀ e ∈ before, less (key e) k) (hafter : ∀ e ∈ after, less k (key e)) :
    Ascending key less (before ++ x :: after) := by
  obtain ⟨hb, ha, hab⟩ := ascending_append_iff.mp hl
  refine ascending_append_iff.mpr ⟨hb, ascending_cons_iff.mpr ⟨fun e he => ?_, ha⟩, ?_⟩
  · exact h.less_of_same_of_less hx (hafter e he)
  · intro a ha b hb
    rcases List.mem_cons.mp hb with rfl | hb
    · exact h.less_of_less_of_same (hbefore a ha) hx.symm
    · exact hab a ha b hb

theorem ascending_remove (hl : Ascending key less (before ++ x :: after)) :
    Ascending key less (before ++ after) :=
  hl.sublist ((List.sublist_cons_self x after).append_left before)

/-! ### The map of a sequence -/

theorem lookup_entries (l : List α) (k : κ) :
    (entries h key l).lookup (h.cls k) = l.find? fun e => Same less (key e) k := by
  show Finmap.lookup _ (List.toFinmap _) = _
  rw [Finmap.dlookup_list_toFinmap]
  induction l with
  | nil => rfl
  | cons e l ih =>
    by_cases hek : Same less (key e) k
    · rw [List.find?_cons_of_pos (by simpa using hek), List.map_cons, ← h.cls_eq_iff.mpr hek]
      exact List.dlookup_cons_eq ..
    · rw [List.find?_cons_of_neg (by simpa using hek), List.map_cons, List.dlookup_cons_ne, ih]
      exact fun heq => hek (h.cls_eq_iff.mp heq.symm)

theorem ext_cls {m m' : Finmap fun _ : h.Class => α}
    (heq : ∀ k, m.lookup (h.cls k) = m'.lookup (h.cls k)) : m = m' :=
  Finmap.ext_lookup fun c => Quotient.inductionOn c heq

theorem find?_of_less (hbefore : ∀ e ∈ before, less (key e) k) :
    (before.find? fun e => Same less (key e) k) = none := by
  rw [List.find?_eq_none]
  intro e he
  simpa using not_same_of_less (hbefore e he)

theorem find?_of_greater (hafter : ∀ e ∈ after, less k (key e)) :
    (after.find? fun e => Same less (key e) k) = none := by
  rw [List.find?_eq_none]
  intro e he
  simpa using fun hsame : Same less (key e) k => not_same_of_less (hafter e he) hsame.symm

theorem lookup_absent (hbefore : ∀ e ∈ before, less (key e) k)
    (hafter : ∀ e ∈ after, less k (key e)) :
    (entries h key (before ++ after)).lookup (h.cls k) = none := by
  rw [lookup_entries, List.find?_append, find?_of_less hbefore, find?_of_greater hafter]
  rfl

theorem lookup_present (hbefore : ∀ e ∈ before, less (key e) k) (hx : Same less (key x) k) :
    (entries h key (before ++ x :: after)).lookup (h.cls k) = some x := by
  rw [lookup_entries, List.find?_append, find?_of_less hbefore, Option.none_or,
    List.find?_cons_of_pos (by simpa using hx)]

/-- Another key is found where it was. -/
theorem lookup_other {k' : κ} (hx : ¬Same less (key x) k') :
    (entries h key (before ++ x :: after)).lookup (h.cls k') =
      (entries h key (before ++ after)).lookup (h.cls k') := by
  rw [lookup_entries, lookup_entries, List.find?_append, List.find?_append,
    List.find?_cons_of_neg (by simpa using hx)]

theorem entries_insert (hx : Same less (key x) k) (hbefore : ∀ e ∈ before, less (key e) k) :
    entries h key (before ++ x :: after) =
      (entries h key (before ++ after)).insert (h.cls k) x := by
  refine ext_cls h fun k' => ?_
  by_cases hk : h.cls k' = h.cls k
  · rw [hk, lookup_present h hbefore hx, Finmap.lookup_insert]
  · rw [Finmap.lookup_insert_of_ne _ hk, lookup_other]
    exact fun hsame => hk (h.cls_eq_iff.mpr (hsame.symm.trans h hx))

theorem entries_remove (hx : Same less (key x) k) (hbefore : ∀ e ∈ before, less (key e) k)
    (hafter : ∀ e ∈ after, less k (key e)) :
    entries h key (before ++ after) =
      (entries h key (before ++ x :: after)).erase (h.cls k) := by
  refine ext_cls h fun k' => ?_
  by_cases hk : h.cls k' = h.cls k
  · rw [hk, lookup_absent h hbefore hafter, Finmap.lookup_erase]
  · rw [Finmap.lookup_erase_ne hk, lookup_other]
    exact fun hsame => hk (h.cls_eq_iff.mpr (hsame.symm.trans h hx))

theorem entries_replace (hx : Same less (key x) k) (hy : Same less (key y) k)
    (hbefore : ∀ e ∈ before, less (key e) k) :
    entries h key (before ++ y :: after) =
      (entries h key (before ++ x :: after)).insert (h.cls k) y := by
  rw [entries_insert h hy hbefore, entries_insert h hx hbefore, Finmap.insert_insert]

theorem erase_eq_self {c : h.Class} (hc : m.lookup c = none) : m.erase c = m := by
  refine Finmap.ext_lookup fun c' => ?_
  by_cases heq : c' = c
  · rw [heq, Finmap.lookup_erase, hc]
  · rw [Finmap.lookup_erase_ne heq]

/-! ### Positions -/

theorem Ascending.nodupKeys (hl : Ascending key less l) :
    (l.map fun e => (⟨h.cls (key e), e⟩ : Sigma fun _ : h.Class => α)).NodupKeys := by
  rw [List.NodupKeys, List.keys, List.map_map]
  refine List.pairwise_map.mpr (hl.imp fun hab heq => ?_)
  exact not_same_of_less hab (h.cls_eq_iff.mp heq)

theorem dedupKeys_eq {β : Type*} {γ : β → Type*} [DecidableEq β] {l : List (Sigma γ)}
    (hl : l.NodupKeys) : l.dedupKeys = l := by
  induction l with
  | nil => rfl
  | cons s l ih =>
    obtain ⟨hs, hl⟩ := List.nodupKeys_cons.mp hl
    rw [List.dedupKeys_cons, ih hl, List.kinsert_def, List.kerase_of_notMem_keys hs]

theorem rank_entries (hl : Ascending key less l) (k : κ) :
    rank h key (entries h key l) k = l.countP fun e => less (key e) k := by
  have hentries : (entries h key l).entries =
      ↑(l.map fun e => (⟨h.cls (key e), e⟩ : Sigma fun _ : h.Class => α)) :=
    congrArg _ (dedupKeys_eq (hl.nodupKeys h))
  show Multiset.countP _ _ = _
  rw [hentries, Multiset.coe_countP, List.countP_map]
  exact List.countP_congr (by simp)

theorem rank_append (hl : Ascending key less (before ++ after))
    (hbefore : ∀ e ∈ before, less (key e) k) (hafter : ∀ e ∈ after, less (key e) k = false) :
    rank h key (entries h key (before ++ after)) k = before.length := by
  rw [rank_entries h hl, List.countP_append, List.countP_eq_length.mpr hbefore,
    List.countP_eq_zero.mpr (by simpa using hafter), Nat.add_zero]

theorem lower_eq_rank (hl : Ascending key less l) (k : κ) :
    lower key less l k = rank h key (entries h key l) k := by
  cases hl.located h k with
  | absent before after hbefore hafter =>
    have hafter' : ∀ e ∈ after, less (key e) k = false := fun e he => h.asymm (hafter e he)
    rw [rank_append h hl hbefore hafter',
      lower_append hbefore fun e he => hafter' e (List.mem_of_mem_head? he)]
  | present before x after hbefore hx hafter =>
    have hafter' : ∀ e ∈ x :: after, less (key e) k = false :=
      List.forall_mem_cons.mpr ⟨hx.1, fun e he => h.asymm (hafter e he)⟩
    rw [rank_append h hl hbefore hafter',
      lower_append hbefore fun e he => hafter' e (List.mem_of_mem_head? he)]

/-- What follows an element, and what is in front of it. -/
theorem Ascending.around (hl : Ascending key less (before ++ x :: after)) :
    (∀ e ∈ before, less (key e) (key x)) ∧ ∀ e ∈ after, less (key x) (key e) := by
  obtain ⟨-, hx, hboth⟩ := ascending_append_iff.mp hl
  exact ⟨fun e he => hboth e he x List.mem_cons_self, (ascending_cons_iff.mp hx).1⟩

theorem rank_middle (hl : Ascending key less (before ++ x :: after)) :
    rank h key (entries h key (before ++ x :: after)) (key x) = before.length := by
  obtain ⟨hbefore, hafter⟩ := hl.around
  refine rank_append h hl hbefore (List.forall_mem_cons.mpr ⟨h.irrefl _, fun e he => ?_⟩)
  exact h.asymm (hafter e he)

theorem split_of_getElem? (hi : l[i]? = some x) :
    ∃ before after, l = before ++ x :: after ∧ before.length = i := by
  obtain ⟨hlt, rfl⟩ := List.getElem?_eq_some_iff.mp hi
  refine ⟨l.take i, l.drop (i + 1), ?_, List.length_take_of_le (Nat.le_of_lt hlt)⟩
  rw [← List.drop_eq_getElem_cons hlt, List.take_append_drop]

theorem Ascending.represents (hl : Ascending key less l) :
    Represents h key l (entries h key l) where
  ascending := hl
  lookup := lookup_entries h l
  position i e := by
    constructor
    · intro hi
      obtain ⟨before, after, rfl, hlen⟩ := split_of_getElem? hi
      have hsame : Same less (key e) (key e) := ⟨h.irrefl _, h.irrefl _⟩
      exact ⟨lookup_present h hl.around.1 hsame, (rank_middle h hl).trans hlen⟩
    · rintro ⟨hlookup, hrank⟩
      rw [lookup_entries] at hlookup
      obtain ⟨j, hj⟩ := List.getElem?_of_mem (List.mem_of_find?_eq_some hlookup)
      obtain ⟨before, after, rfl, hlen⟩ := split_of_getElem? hj
      rw [rank_middle h hl] at hrank
      rw [← hrank, hlen, hj]

theorem lookup_eq_some_iff_mem (hl : Ascending key less l) :
    (entries h key l).lookup (h.cls (key x)) = some x ↔ x ∈ l := by
  constructor
  · intro hlookup
    rw [lookup_entries] at hlookup
    exact List.mem_of_find?_eq_some hlookup
  · intro hx
    obtain ⟨i, hi⟩ := List.getElem?_of_mem hx
    exact (((hl.represents h).position i x).mp hi).1

theorem lookup_eq_some_iff (hl : Ascending key less l) :
    (entries h key l).lookup (h.cls k) = some x ↔ x ∈ l ∧ Same less (key x) k := by
  constructor
  · intro hlookup
    rw [lookup_entries] at hlookup
    exact ⟨List.mem_of_find?_eq_some hlookup, by simpa using List.find?_some hlookup⟩
  · rintro ⟨hx, hsame⟩
    rw [← h.cls_eq_iff.mpr hsame]
    exact (lookup_eq_some_iff_mem h hl).mpr hx

include h in
theorem Ascending.mem_take_iff (hl : Ascending key less l) (hi : l[i]? = some x) (n : Nat) :
    x ∈ l.take n ↔ i < n := by
  rw [List.mem_iff_getElem?]
  constructor
  · rintro ⟨j, hj⟩
    rw [List.getElem?_take] at hj
    split at hj
    · next hlt =>
      have hrank := (((hl.represents h).position i x).mp hi).2
      have hrank' := (((hl.represents h).position j x).mp hj).2
      omega
    · cases hj
  · intro hlt
    exact ⟨i, by rw [List.getElem?_take, if_pos hlt, hi]⟩

include h in
theorem Ascending.mem_drop_iff (hl : Ascending key less l) (hi : l[i]? = some x) (n : Nat) :
    x ∈ l.drop n ↔ n ≤ i := by
  rw [List.mem_iff_getElem?]
  constructor
  · rintro ⟨j, hj⟩
    rw [List.getElem?_drop] at hj
    have hrank := (((hl.represents h).position i x).mp hi).2
    have hrank' := (((hl.represents h).position _ x).mp hj).2
    omega
  · intro hle
    exact ⟨i - n, by rw [List.getElem?_drop, Nat.add_sub_cancel' hle, hi]⟩

/-- What is left of the map when the elements at some positions are removed. -/
theorem lookup_removeRange (hl : Ascending key less l) (first n : Nat) (k : κ) :
    (entries h key (l.take first ++ l.drop (first + n))).lookup (h.cls k) =
      ((entries h key l).lookup (h.cls k)).filter fun e =>
        rank h key (entries h key l) (key e) < first ∨
          first + n ≤ rank h key (entries h key l) (key e) := by
  have hsub : (l.take first ++ l.drop (first + n)).Sublist l := by
    have hdrop := List.drop_sublist_drop_left l (Nat.le_add_right first n)
    have happend := hdrop.append_left (l.take first)
    rwa [List.take_append_drop] at happend
  ext e
  rw [Option.filter_eq_some_iff, lookup_eq_some_iff h (hl.sublist hsub), lookup_eq_some_iff h hl,
    and_right_comm]
  refine and_congr_left fun _ => ?_
  constructor
  · intro he
    obtain ⟨i, hi⟩ := List.getElem?_of_mem (hsub.subset he)
    rw [List.mem_append, hl.mem_take_iff h hi, hl.mem_drop_iff h hi] at he
    rw [(((hl.represents h).position i e).mp hi).2]
    exact ⟨List.mem_of_getElem? hi, by simpa using he⟩
  · rintro ⟨he, hrank⟩
    obtain ⟨i, hi⟩ := List.getElem?_of_mem he
    rw [(((hl.represents h).position i e).mp hi).2] at hrank
    rw [List.mem_append, hl.mem_take_iff h hi, hl.mem_drop_iff h hi]
    simpa using hrank

/-! ### Sorting -/

/-- An order among the elements that does not tell elements with the same key apart. -/
def Sorted (key : α → κ) (less : κ → κ → Bool) (l : List α) : Prop :=
  l.Pairwise fun a b => less (key b) (key a) = false

/-- The first element of every key is kept. -/
def uniques (key : α → κ) (less : κ → κ → Bool) (l : List α) : List α :=
  l.destutter fun a b => less (key a) (key b) = true

include h in
theorem ascending_uniques (l : List α) : Ascending key less (uniques key less l) := by
  have hchain : (uniques key less l).IsChain fun a b => less (key a) (key b) = true :=
    List.isChain_destutter _ l
  have : IsTrans α fun a b => less (key a) (key b) = true := ⟨fun a b c => h.less_trans⟩
  exact List.isChain_iff_pairwise.mp hchain

theorem mem_of_mem_uniques (hx : x ∈ uniques key less l) : x ∈ l :=
  (List.destutter_sublist _ l).subset hx

include h in
/-- An element that goes has the key of the one that stayed before it. -/
theorem exists_same_mem_destutter' (hl : Sorted key less (x :: l)) (hy : y ∈ x :: l) :
    ∃ e ∈ l.destutter' (fun a b => less (key a) (key b) = true) x, Same less (key e) (key y) := by
  induction l generalizing x y with
  | nil =>
    obtain rfl := List.mem_singleton.mp hy
    exact ⟨y, List.mem_singleton_self y, h.irrefl _, h.irrefl _⟩
  | cons b l ih =>
    obtain ⟨hx, hl⟩ := List.pairwise_cons.mp hl
    obtain ⟨hb, hl'⟩ := List.pairwise_cons.mp hl
    by_cases hless : less (key x) (key b) = true
    · rw [List.destutter'_cons_pos (R := fun a b => less (key a) (key b) = true) l hless]
      rcases List.mem_cons.mp hy with rfl | hy
      · exact ⟨y, List.mem_cons_self, h.irrefl _, h.irrefl _⟩
      · obtain ⟨e, he, hsame⟩ := ih hl hy
        exact ⟨e, List.mem_cons_of_mem x he, hsame⟩
    · rw [List.destutter'_cons_neg (R := fun a b => less (key a) (key b) = true) l hless]
      have hxl : Sorted key less (x :: l) :=
        List.pairwise_cons.mpr ⟨fun a ha => hx a (List.mem_cons_of_mem b ha), hl'⟩
      have hxb : Same less (key x) (key b) := ⟨by simpa using hless, hx b List.mem_cons_self⟩
      rcases List.mem_cons.mp hy with rfl | hy
      · exact ih hxl List.mem_cons_self
      rcases List.mem_cons.mp hy with rfl | hy
      · obtain ⟨e, he, hsame⟩ := ih hxl List.mem_cons_self
        exact ⟨e, he, hsame.trans h hxb⟩
      · exact ih hxl (List.mem_cons_of_mem x hy)

include h in
theorem exists_same_mem_uniques (hl : Sorted key less l) (hy : y ∈ l) :
    ∃ e ∈ uniques key less l, Same less (key e) (key y) := by
  cases l with
  | nil => cases hy
  | cons x l => exact exists_same_mem_destutter' h hl hy

/-- A map with one of the candidates for every key that has any. -/
def Chosen (key : α → κ) (candidate : α → Prop) (m : Finmap fun _ : h.Class => α) : Prop :=
  ∀ k, match m.lookup (h.cls k) with
    | none => ∀ e, candidate e → ¬Same less (key e) k
    | some e => candidate e ∧ Same less (key e) k

theorem chosen_uniques {candidate : α → Prop} (hl : Sorted key less l)
    (hmem : ∀ e, e ∈ l ↔ candidate e) :
    Chosen h key candidate (entries h key (uniques key less l)) := by
  intro k
  rw [lookup_entries]
  cases hfind : (uniques key less l).find? fun e => Same less (key e) k with
  | none =>
    intro e he hsame
    obtain ⟨x, hx, hxe⟩ := exists_same_mem_uniques h hl ((hmem e).mpr he)
    exact List.find?_eq_none.mp hfind x hx (by simpa using hxe.trans h hsame)
  | some e =>
    have hsame : Same less (key e) k := by simpa using List.find?_some hfind
    exact ⟨(hmem e).mp (mem_of_mem_uniques (List.mem_of_find?_eq_some hfind)), hsame⟩

end KeyedSequences
