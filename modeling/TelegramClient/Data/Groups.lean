import Mathlib

/-! The groups of messages of `data_groups.cpp`. Each group lists its items, which get their ids
from the server some time after they were sent. -/

namespace TelegramClient.Data

abbrev MsgId := Int

def ServerMaxMsgId : MsgId := 0x3FFFFFFF

def IsServerMsgId (id : MsgId) : Bool := 0 < id && id < ServerMaxMsgId

def kMaxItemsInGroup : Nat := 10

/-- What the groups ask the items for. -/
structure Items (Item GroupId : Type) where
  id : Item → MsgId
  groupId : Item → Option GroupId
  /-- `media && media->canBeGrouped()` -/
  canBeGrouped : Item → Bool

/-- `std::map<MessageGroupId, Group>` -/
abbrev Groups (Item GroupId : Type) := GroupId → Option (List Item)

section Swaps

variable {Item : Type}

/-- `std::swap(*(current - 1), *current)` -/
def swapWithPrev (items : List Item) (current : Nat) : List Item :=
  match items[current - 1]?, items[current]? with
  | some a, some b => (items.set (current - 1) b).set current a
  | _, _ => items

/-- A number of swaps, each one further on. -/
def swapForward : Nat → Nat → List Item → List Item
  | 0, _, items => items
  | n + 1, current, items => swapForward n (current + 1) (swapWithPrev items current)

/-- A number of swaps, each one further back. -/
def swapBackward : Nat → Nat → List Item → List Item
  | 0, _, items => items
  | n + 1, current, items => swapBackward n (current - 1) (swapWithPrev items current)

theorem swapWithPrev_append {A C : List Item} {a b : Item} :
    swapWithPrev (A ++ a :: b :: C) (A.length + 1) = A ++ b :: a :: C := by
  simp [swapWithPrev, List.set_append_right]

theorem swapForward_append {A B C : List Item} {item : Item} :
    swapForward B.length (A.length + 1) (A ++ item :: (B ++ C)) =
    A ++ B ++ item :: C := by
  induction B generalizing A with
  | nil => simp [swapForward]
  | cons b B ih =>
    have hrest := @ih (A ++ [b])
    rw [List.length_append, List.length_singleton] at hrest
    rw [List.length_cons, List.cons_append, swapForward, swapWithPrev_append]
    simpa using hrest

theorem swapBackward_append {A B C : List Item} {item : Item} :
    swapBackward B.length (A ++ B).length (A ++ B ++ item :: C) =
    A ++ item :: (B ++ C) := by
  induction B using List.reverseRecOn generalizing C with
  | nil => simp [swapBackward]
  | append_singleton B b ih =>
    have hrest := @ih (b :: C)
    have hlength : (A ++ (B ++ [b])).length = (A ++ B).length + 1 := by simp [Nat.add_assoc]
    have hsplit : A ++ (B ++ [b]) ++ item :: C = (A ++ B) ++ b :: item :: C := by simp
    rw [List.length_append, List.length_singleton, hlength, swapBackward, hsplit,
      swapWithPrev_append, Nat.add_sub_cancel, hrest]
    simp

end Swaps

namespace Items

variable {Item GroupId : Type} [DecidableEq Item] (m : Items Item GroupId)

def isGrouped (item : Item) : Bool := (m.groupId item).isSome && m.canBeGrouped item

/-- A server id that is greater than the id of the item. -/
def isLater (item already : Item) : Bool :=
  IsServerMsgId (m.id already) && m.id already > m.id item

def findPositionForItem (group : List Item) (item : Item) : Nat :=
  if !IsServerMsgId (m.id item) then group.length
  else group.findIdx (m.isLater item)

/-- The item goes to its position. In `none` the code is where it does not expect to be. -/
def refreshPosition (item : Item) (items : List Item) : Option (List Item) :=
  let position := m.findPositionForItem items item
  let current := items.idxOf item
  if current = items.length then some (items.insertIdx position item)
  else if position = current + 1 then some items
  else if position > current + 1 then
    some (swapForward (position - (current + 1)) (current + 1) items)
  else if position < current then some (swapBackward (current - position) current items)
  else none

/-! ### The position of an item -/

variable {m} {item : Item} {items A B C : List Item}

/-- The first later item and those behind it, and the items before them. -/
structure SplitAt (m : Items Item GroupId) (item : Item) (L P S : List Item) : Prop where
  append : L = P ++ S
  before : ∀ a ∈ P, m.isLater item a = false
  first : ∀ s ∈ S.head?, m.isLater item s = true

omit [DecidableEq Item] in
theorem splitAt_findIdx (m : Items Item GroupId) (item : Item) (L : List Item) :
    ∃ P S, SplitAt m item L P S ∧ L.findIdx (m.isLater item) = P.length := by
  induction L with
  | nil => exact ⟨[], [], ⟨rfl, by simp, by simp⟩, rfl⟩
  | cons a L ih =>
    by_cases ha : m.isLater item a = true
    · exact ⟨[], a :: L, ⟨rfl, by simp, by simpa using ha⟩, by simp [List.findIdx_cons, ha]⟩
    · obtain ⟨P, S, hsplit, hfind⟩ := ih
      have hfalse : m.isLater item a = false := by simpa using ha
      refine ⟨a :: P, S, ⟨?_, ?_, hsplit.first⟩, ?_⟩
      · rw [hsplit.append, List.cons_append]
      · exact List.forall_mem_cons.mpr ⟨hfalse, hsplit.before⟩
      · simp [List.findIdx_cons, hfalse, hfind]

omit [DecidableEq Item] in
theorem isLater_self (m : Items Item GroupId) (item : Item) : m.isLater item item = false := by
  simp [isLater]

omit [DecidableEq Item] in
theorem insertIdx_length_append : (A ++ C).insertIdx A.length item = A ++ item :: C := by
  induction A with
  | nil => rfl
  | cons a A ih => simp [List.insertIdx_succ_cons, ih]

/-- An item that is not there is put in before the first later one. -/
theorem refreshPosition_new (hserver : IsServerMsgId (m.id item) = true) (hitem : item ∉ items) :
    ∃ P S, SplitAt m item items P S ∧
      m.refreshPosition item items = some (P ++ item :: S) := by
  obtain ⟨P, S, hsplit, hfind⟩ := splitAt_findIdx m item items
  refine ⟨P, S, hsplit, ?_⟩
  have hposition : m.findPositionForItem items item = P.length := by
    simp [findPositionForItem, hserver, hfind]
  have hcurrent : items.idxOf item = items.length := List.idxOf_eq_length hitem
  simp only [refreshPosition, hposition, hcurrent, if_true]
  rw [hsplit.append, insertIdx_length_append]

theorem refreshPosition_moved (hserver : IsServerMsgId (m.id item) = true) (hA : item ∉ A) :
    ∃ P S, SplitAt m item (A ++ C) P S ∧
      m.refreshPosition item (A ++ item :: C) = some (P ++ item :: S) := by
  have hcurrent : (A ++ item :: C).idxOf item = A.length := by
    rw [List.idxOf_append_of_notMem hA, List.idxOf_cons_self, Nat.add_zero]
  have hne : A.length ≠ (A ++ item :: C).length := by
    simp
  obtain ⟨P, S, hsplit, hfind⟩ := splitAt_findIdx m item A
  cases S with
  | nil =>
    -- the first later item is behind the item, if there is one
    obtain ⟨Q, T, hsplitC, hfindC⟩ := splitAt_findIdx m item C
    obtain rfl : A = P := by simpa using hsplit.append
    have hposition : m.findPositionForItem (A ++ item :: C) item = A.length + 1 + Q.length := by
      simp only [findPositionForItem, hserver, Bool.not_true, Bool.false_eq_true, if_false,
        List.findIdx_append, hfind, Nat.lt_irrefl, List.findIdx_cons, isLater_self, cond_false,
        hfindC]
      omega
    refine ⟨A ++ Q, T, ⟨?_, ?_, hsplitC.first⟩, ?_⟩
    · rw [hsplitC.append, List.append_assoc]
    · exact List.forall_mem_append.mpr ⟨hsplit.before, hsplitC.before⟩
    · simp only [refreshPosition, hposition, hcurrent, if_neg hne]
      by_cases hQ : Q = []
      · subst hQ
        simp [hsplitC.append]
      · have hpos : 0 < Q.length := List.length_pos_iff.mpr hQ
        rw [if_neg (by omega), if_pos (by omega), Nat.add_sub_cancel_left, hsplitC.append,
          swapForward_append]
  | cons s S =>
    -- the first later item is before the item
    have hlength : A.length = P.length + (s :: S).length := by
      rw [hsplit.append, List.length_append]
    have hposition : m.findPositionForItem (A ++ item :: C) item = P.length := by
      have hlt : P.length < A.length := by
        simp only [List.length_cons] at hlength
        omega
      simp [findPositionForItem, hserver, List.findIdx_append, hfind, hlt]
    refine ⟨P, s :: S ++ C, ⟨?_, hsplit.before, hsplit.first⟩, ?_⟩
    · rw [hsplit.append, List.append_assoc]
    · simp only [List.length_cons] at hlength
      simp only [refreshPosition, hposition, hcurrent, if_neg hne]
      rw [if_neg (by omega), if_neg (by omega), if_pos (by omega)]
      have hback := @swapBackward_append _ P (s :: S) C item
      rw [← hsplit.append] at hback
      rw [show A.length - P.length = (s :: S).length by simp only [List.length_cons]; omega, hback]

/-! ### The order of a group -/

/-- Items with ids from the server stand in the order of their ids. -/
def Before (m : Items Item GroupId) (a b : Item) : Prop :=
  IsServerMsgId (m.id a) = true → IsServerMsgId (m.id b) = true → m.id a < m.id b

omit [DecidableEq Item] in
theorem SplitAt.pairwise {P S L : List Item} (hids : Function.Injective m.id)
    (h : SplitAt m item L P S) (hserver : IsServerMsgId (m.id item) = true) (hitem : item ∉ L)
    (hL : L.Pairwise (Before m)) : (P ++ item :: S).Pairwise (Before m) := by
  obtain ⟨rfl, hP, hS⟩ := h
  rw [List.pairwise_append] at hL ⊢
  obtain ⟨hPP, hSS, hPS⟩ := hL
  have hbefore : ∀ a ∈ P, Before m a item := by
    intro a ha hserverA _
    have hnot := hP a ha
    have hne : m.id a ≠ m.id item := by
      intro heq
      exact hitem (List.mem_append_left _ (hids heq ▸ ha))
    simp only [isLater, hserverA, Bool.true_and, gt_iff_lt, decide_eq_false_iff_not] at hnot
    exact lt_of_le_of_ne (not_lt.mp hnot) hne
  have hbehind : ∀ s ∈ S, Before m item s := by
    intro s hs _ hserverS
    cases S with
    | nil => cases hs
    | cons first S =>
      have hfirst := hS first rfl
      simp only [isLater, Bool.and_eq_true, gt_iff_lt, decide_eq_true_eq] at hfirst
      rcases List.mem_cons.mp hs with rfl | hs
      · exact hfirst.2
      · exact lt_trans hfirst.2 ((List.pairwise_cons.mp hSS).1 s hs hfirst.1 hserverS)
  refine ⟨hPP, List.pairwise_cons.mpr ⟨hbehind, hSS⟩, ?_⟩
  intro a ha b hb
  rcases List.mem_cons.mp hb with rfl | hb
  · exact hbefore a ha
  · exact hPS a ha b hb

theorem pairwise_of_local (hlocal : IsServerMsgId (m.id item) = false)
    (h : (items.filter (· ≠ item)).Pairwise (Before m)) : items.Pairwise (Before m) := by
  induction items with
  | nil => exact .nil
  | cons a items ih =>
    by_cases ha : a = item
    · subst ha
      rw [List.filter_cons_of_neg (by simp)] at h
      rw [List.pairwise_cons]
      refine ⟨?_, ih h⟩
      intro b _ hserver
      rw [hlocal] at hserver
      cases hserver
    · rw [List.filter_cons_of_pos (by simpa using ha), List.pairwise_cons] at h
      rw [List.pairwise_cons]
      refine ⟨?_, ih h.2⟩
      intro b hb
      by_cases hbitem : b = item
      · subst hbitem
        intro _ hserver
        rw [hlocal] at hserver
        cases hserver
      · exact h.1 b (List.mem_filter.mpr ⟨hb, by simpa using hbitem⟩)

/-! ### The operations -/

variable [DecidableEq GroupId] (m)

def registerMessage (item : Item) (groups : Groups Item GroupId) : Groups Item GroupId :=
  if !m.isGrouped item then groups
  else
    match m.groupId item with
    | none => groups
    | some groupId =>
      let items := (groups groupId).getD []
      if items.length < kMaxItemsInGroup then
        Function.update groups groupId
          (some (items.insertIdx (m.findPositionForItem items item) item))
      else Function.update groups groupId (some items)

def unregisterMessage (item : Item) (groups : Groups Item GroupId) : Groups Item GroupId :=
  match m.groupId item with
  | none => groups
  | some groupId =>
    match groups groupId with
    | none => groups
    | some items =>
      if item ∈ items then
        let items := items.filter (· ≠ item)
        Function.update groups groupId (if items = [] then none else some items)
      else groups

def refreshMessage (item : Item) (justRefreshViews : Bool) (groups : Groups Item GroupId) :
    Option (Groups Item GroupId) :=
  if !m.isGrouped item then some (m.unregisterMessage item groups)
  else if !IsServerMsgId (m.id item) then some groups
  else
    match m.groupId item with
    | none => some groups
    | some groupId =>
      match groups groupId with
      | none => some (m.registerMessage item groups)
      | some items =>
        if justRefreshViews then some groups
        else (m.refreshPosition item items).map fun items =>
          Function.update groups groupId (some items)

/-! ### What holds of the groups -/

/-- What holds of a group. -/
structure InOrder (g : GroupId) (items : List Item) : Prop where
  nonempty : items ≠ []
  nodup : items.Nodup
  belong : ∀ item ∈ items, m.groupId item = some g
  sorted : items.Pairwise (Before m)

def Ordered (groups : Groups Item GroupId) : Prop :=
  ∀ g items, groups g = some items → InOrder m g items

/-- What holds of a group while the id of an item is new. -/
structure InOrderBut (item : Item) (g : GroupId) (items : List Item) : Prop where
  nonempty : items ≠ []
  nodup : items.Nodup
  belong : ∀ item ∈ items, m.groupId item = some g
  sorted : (items.filter (· ≠ item)).Pairwise (Before m)

def OrderedBut (item : Item) (groups : Groups Item GroupId) : Prop :=
  ∀ g items, groups g = some items → InOrderBut m item g items

def Listed (item : Item) (groups : Groups Item GroupId) : Prop :=
  ∃ g ∈ m.groupId item, ∃ items ∈ groups g, item ∈ items

variable {m} {g : GroupId} {groups groups' : Groups Item GroupId} {o : Option (List Item)}

omit [DecidableEq GroupId] in
theorem filter_of_notMem (h : item ∉ items) : items.filter (· ≠ item) = items := by
  rw [List.filter_eq_self]
  intro a ha
  have hne : a ≠ item := by
    rintro rfl
    exact h ha
  simpa using hne

omit [DecidableEq GroupId] in
theorem InOrderBut.inOrder (h : InOrderBut m item g items) (hitem : item ∉ items) :
    InOrder m g items where
  nonempty := h.nonempty
  nodup := h.nodup
  belong := h.belong
  sorted := by
    have hsorted := h.sorted
    rwa [filter_of_notMem hitem] at hsorted

omit [DecidableEq GroupId] in
theorem Ordered.but (h : Ordered m groups) (item : Item) : OrderedBut m item groups := by
  intro g items hg
  obtain ⟨hnonempty, hnodup, hbelong, hsorted⟩ := h g items hg
  exact ⟨hnonempty, hnodup, hbelong, hsorted.filter _⟩

omit [DecidableEq GroupId] in
theorem OrderedBut.ordered (h : OrderedBut m item groups) (hitem : ¬ Listed m item groups) :
    Ordered m groups := by
  intro g items hg
  apply (h g items hg).inOrder
  intro hmem
  exact hitem ⟨g, (h g items hg).belong item hmem, items, hg, hmem⟩

theorem OrderedBut.update (h : OrderedBut m item groups) (hgroup : m.groupId item = some g)
    (ho : ∀ items ∈ o, InOrder m g items) : Ordered m (Function.update groups g o) := by
  intro g' items hg'
  by_cases hg : g' = g
  · subst hg
    rw [Function.update_self] at hg'
    exact ho items hg'
  · rw [Function.update_of_ne hg] at hg'
    apply (h g' items hg').inOrder
    intro hmem
    have hbelong := (h g' items hg').belong item hmem
    rw [hgroup] at hbelong
    exact hg (Option.some.inj hbelong).symm

omit [DecidableEq Item] [DecidableEq GroupId] in
theorem InOrder.place {P S : List Item} (hgroup : m.groupId item = some g)
    (hnodup : (P ++ S).Nodup) (hbelong : ∀ a ∈ P ++ S, m.groupId a = some g)
    (hitem : item ∉ P ++ S) (hsorted : (P ++ item :: S).Pairwise (Before m)) :
    InOrder m g (P ++ item :: S) where
  nonempty := by simp
  nodup := List.nodup_middle.mpr (List.nodup_cons.mpr ⟨hitem, hnodup⟩)
  belong := by
    intro a ha
    rcases List.mem_cons.mp (List.perm_middle.mem_iff.mp ha) with rfl | ha
    · exact hgroup
    · exact hbelong a ha
  sorted := hsorted

theorem unregisterMessage_ordered (h : OrderedBut m item groups) :
    Ordered m (m.unregisterMessage item groups) := by
  rw [unregisterMessage]
  cases hgroup : m.groupId item with
  | none =>
    apply h.ordered
    rintro ⟨g, hg, -⟩
    rw [hgroup] at hg
    cases hg
  | some g =>
    dsimp only
    cases hitems : groups g with
    | none =>
      apply h.ordered
      rintro ⟨g', hg', items, hitems', -⟩
      obtain rfl : g = g' := by simpa [hgroup] using hg'
      rw [hitems] at hitems'
      cases hitems'
    | some items =>
      dsimp only
      by_cases hmem : item ∈ items
      · rw [if_pos hmem]
        apply h.update hgroup
        intro rest hrest
        obtain ⟨-, hnodup, hbelong, hsorted⟩ := h g items hitems
        by_cases hempty : items.filter (· ≠ item) = []
        · rw [if_pos hempty] at hrest
          cases hrest
        · rw [if_neg hempty] at hrest
          obtain rfl : items.filter (· ≠ item) = rest := Option.some.inj hrest
          exact ⟨hempty, hnodup.filter _, fun a ha => hbelong a (List.mem_of_mem_filter ha),
            hsorted⟩
      · rw [if_neg hmem]
        apply h.ordered
        rintro ⟨g', hg', items', hitems', hmem'⟩
        obtain rfl : g = g' := by simpa [hgroup] using hg'
        obtain rfl : items = items' := by simpa [hitems] using hitems'
        exact hmem hmem'

omit [DecidableEq GroupId] in
theorem insert_inOrder (hids : Function.Injective m.id) (hgroup : m.groupId item = some g)
    (hnodup : items.Nodup) (hbelong : ∀ a ∈ items, m.groupId a = some g)
    (hsorted : items.Pairwise (Before m)) (hitem : item ∉ items) :
    InOrder m g (items.insertIdx (m.findPositionForItem items item) item) := by
  by_cases hserver : IsServerMsgId (m.id item) = true
  · obtain ⟨P, S, hsplit, hfind⟩ := splitAt_findIdx m item items
    have hposition : m.findPositionForItem items item = P.length := by
      simp [findPositionForItem, hserver, hfind]
    have hplaced := hsplit.pairwise hids hserver hitem hsorted
    obtain rfl := hsplit.append
    rw [hposition, insertIdx_length_append]
    exact InOrder.place hgroup hnodup hbelong hitem hplaced
  · have hlocal : IsServerMsgId (m.id item) = false := by simpa using hserver
    have hposition : m.findPositionForItem items item = items.length := by
      simp [findPositionForItem, hlocal]
    rw [hposition, List.insertIdx_length_self]
    apply InOrder.place hgroup
    · simpa using hnodup
    · simpa using hbelong
    · simpa using hitem
    · apply pairwise_of_local hlocal
      rw [List.filter_append, filter_of_notMem hitem]
      simpa using hsorted

theorem registerMessage_ordered (hids : Function.Injective m.id) (h : Ordered m groups)
    (hitem : ¬ Listed m item groups) : Ordered m (m.registerMessage item groups) := by
  rw [registerMessage]
  by_cases hgrouped : m.isGrouped item = true
  · rw [if_neg (by simp [hgrouped])]
    cases hgroup : m.groupId item with
    | none => exact h
    | some g =>
      dsimp only
      have hitems : ∀ items, groups g = some items → item ∉ items := by
        intro items hg hmem
        exact hitem ⟨g, hgroup, items, hg, hmem⟩
      cases hg : groups g with
      | none =>
        simp only [Option.getD_none]
        rw [if_pos (by simp [kMaxItemsInGroup])]
        apply (h.but item).update hgroup
        intro items hnew
        obtain rfl := Option.some.inj hnew
        exact insert_inOrder hids hgroup .nil (by simp) .nil (by simp)
      | some items =>
        obtain ⟨hnonempty, hnodup, hbelong, hsorted⟩ := h g items hg
        simp only [Option.getD_some]
        by_cases hroom : items.length < kMaxItemsInGroup
        · rw [if_pos hroom]
          apply (h.but item).update hgroup
          intro items' hnew
          obtain rfl := Option.some.inj hnew
          exact insert_inOrder hids hgroup hnodup hbelong hsorted (hitems items hg)
        · rw [if_neg hroom]
          apply (h.but item).update hgroup
          intro items' hnew
          obtain rfl := Option.some.inj hnew
          exact h g items hg
  · rw [if_pos (by simpa using hgrouped)]
    exact h

omit [DecidableEq GroupId] in
theorem OrderedBut.of_local (h : OrderedBut m item groups)
    (hlocal : IsServerMsgId (m.id item) = false) : Ordered m groups := by
  intro g items hg
  obtain ⟨hnonempty, hnodup, hbelong, hsorted⟩ := h g items hg
  exact ⟨hnonempty, hnodup, hbelong, pairwise_of_local hlocal hsorted⟩

omit [DecidableEq GroupId] in
/-- The item of a group with a new id from the server is put in its place, and the code is never
where it does not expect to be. -/
theorem refreshPosition_inOrder (hids : Function.Injective m.id)
    (hserver : IsServerMsgId (m.id item) = true) (hgroup : m.groupId item = some g)
    (h : InOrderBut m item g items) :
    ∃ items', m.refreshPosition item items = some items' ∧ InOrder m g items' ∧
      items'.length = if item ∈ items then items.length else items.length + 1 := by
  obtain ⟨-, hnodup, hbelong, hsorted⟩ := h
  by_cases hmem : item ∈ items
  · obtain ⟨A, C, rfl, hA⟩ := List.eq_append_cons_of_mem hmem
    have hC : item ∉ C := (List.nodup_cons.mp (List.nodup_append.mp hnodup).2.1).1
    have hnotMem : item ∉ A ++ C := by simp [hA, hC]
    rw [List.filter_append, List.filter_cons_of_neg (by simp), ← List.filter_append,
      filter_of_notMem hnotMem] at hsorted
    obtain ⟨P, S, hsplit, hrun⟩ := @refreshPosition_moved _ _ _ m item A C hserver hA
    have hplaced := hsplit.pairwise hids hserver hnotMem hsorted
    have hnodupAC : (A ++ C).Nodup := (List.nodup_cons.mp (List.nodup_middle.mp hnodup)).2
    have hbelongAC : ∀ a ∈ A ++ C, m.groupId a = some g := by
      intro a ha
      apply hbelong a
      simp only [List.mem_append, List.mem_cons] at ha ⊢
      tauto
    have hlength := congrArg List.length hsplit.append
    rw [hsplit.append] at hnodupAC hbelongAC hnotMem
    refine ⟨P ++ item :: S, hrun, InOrder.place hgroup hnodupAC hbelongAC hnotMem hplaced, ?_⟩
    rw [if_pos hmem]
    simp only [List.length_append, List.length_cons] at hlength ⊢
    omega
  · obtain ⟨P, S, hsplit, hrun⟩ := @refreshPosition_new _ _ _ m item items hserver hmem
    rw [filter_of_notMem hmem] at hsorted
    have hplaced := hsplit.pairwise hids hserver hmem hsorted
    have hlength := congrArg List.length hsplit.append
    rw [hsplit.append] at hnodup hbelong
    have hnotMem := hmem
    rw [hsplit.append] at hnotMem
    refine ⟨P ++ item :: S, hrun, InOrder.place hgroup hnodup hbelong hnotMem hplaced, ?_⟩
    rw [if_neg hmem]
    simp only [List.length_append, List.length_cons] at hlength ⊢
    omega

theorem refreshMessage_ordered {justRefreshViews : Bool} (hids : Function.Injective m.id)
    (h : OrderedBut m item groups) (hviews : justRefreshViews = true → Ordered m groups) :
    ∃ groups', m.refreshMessage item justRefreshViews groups = some groups' ∧
      Ordered m groups' := by
  rw [refreshMessage]
  by_cases hgrouped : m.isGrouped item = true
  · rw [if_neg (by simp [hgrouped])]
    by_cases hserver : IsServerMsgId (m.id item) = true
    · rw [if_neg (by simp [hserver])]
      cases hgroup : m.groupId item with
      | none =>
        refine ⟨groups, rfl, h.ordered ?_⟩
        rintro ⟨g, hg, -⟩
        rw [hgroup] at hg
        cases hg
      | some g =>
        dsimp only
        cases hg : groups g with
        | none =>
          have hitem : ¬ Listed m item groups := by
            rintro ⟨g', hg', items, hitems, -⟩
            obtain rfl : g = g' := by simpa [hgroup] using hg'
            rw [hg] at hitems
            cases hitems
          exact ⟨_, rfl, registerMessage_ordered hids (h.ordered hitem) hitem⟩
        | some items =>
          dsimp only
          by_cases hjust : justRefreshViews = true
          · rw [if_pos hjust]
            exact ⟨groups, rfl, hviews hjust⟩
          · rw [if_neg hjust]
            obtain ⟨items', hrun, horder, -⟩ :=
              refreshPosition_inOrder hids hserver hgroup (h g items hg)
            refine ⟨_, by rw [hrun]; rfl, h.update hgroup ?_⟩
            intro items'' hnew
            obtain rfl := Option.some.inj hnew
            exact horder
    · rw [if_pos (by simpa using hserver)]
      exact ⟨groups, rfl, h.of_local (by simpa using hserver)⟩
  · rw [if_pos (by simpa using hgrouped)]
    exact ⟨_, rfl, unregisterMessage_ordered h⟩

end Items

end TelegramClient.Data
