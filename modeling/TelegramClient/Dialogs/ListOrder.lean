import TelegramClient.Dialogs.ListRuns

/-! The order of a list of rows: by date the list stays sorted, by name only some changes of a
name keep it so. -/

namespace TelegramClient.Dialogs

theorem pairwise_insert {α : Type*} {R : α → α → Prop} (htrans : ∀ a b c, R a b → R b c → R a c)
    {A C : List α} {x : α} (h : (A ++ C).Pairwise R) (hA : ∀ a ∈ A.getLast?, R a x)
    (hC : ∀ c ∈ C.head?, R x c) : (A ++ x :: C).Pairwise R := by
  rw [List.pairwise_append] at h ⊢
  obtain ⟨hPA, hPC, hAC⟩ := h
  have hAx : ∀ a ∈ A, R a x := by
    intro a ha
    induction A using List.reverseRecOn with
    | nil => cases ha
    | append_singleton A b =>
      have hb : R b x := hA b List.getLast?_concat
      rcases List.mem_append.mp ha with ha | ha
      · exact htrans a b x ((List.pairwise_append.mp hPA).2.2 a ha b (List.mem_singleton_self b)) hb
      · rw [List.mem_singleton.mp ha]
        exact hb
  have hxC : ∀ c ∈ C, R x c := by
    intro c hc
    cases C with
    | nil => cases hc
    | cons d C =>
      have hd : R x d := hC d rfl
      rcases List.mem_cons.mp hc with rfl | hc
      · exact hd
      · exact htrans x d c hd ((List.pairwise_cons.mp hPC).1 c hc)
  refine ⟨hPA, List.pairwise_cons.mpr ⟨hxC, hPC⟩, ?_⟩
  intro a ha c hc
  rcases List.mem_cons.mp hc with rfl | hc
  · exact hAx a ha
  · exact hAC a ha c hc

namespace DialogsList

variable {Key : Type} {l l' : DialogsList Key} {ids A C : List RowId} {x : RowId} {key : Key}
  {e : Entries Key} {up down : Key → Prop}

/-- The keys of rows, in their order. -/
def order (l : DialogsList Key) (ids : List RowId) : List Key :=
  ids.filterMap l.rows.key

theorem order_congr (h : l'.rows.key = l.rows.key) : order l' ids = order l ids := by
  rw [order, order, h]

theorem order_append : order l (A ++ C) = order l A ++ order l C :=
  List.filterMap_append

theorem order_cons (hkey : l.rows.key x = some key) : order l (x :: C) = key :: order l C :=
  List.filterMap_cons_some hkey

theorem getLast?_order (h : ∀ a ∈ A.getLast?, l.Holds up a) : ∀ k ∈ (order l A).getLast?, up k := by
  intro k hk
  induction A using List.reverseRecOn with
  | nil => cases hk
  | append_singleton A a =>
    obtain ⟨key, hkey, hup⟩ := h a List.getLast?_concat
    rw [order_append, order_cons hkey] at hk
    obtain rfl : key = k := by simpa [order] using hk
    exact hup

theorem head?_order (h : ∀ c ∈ C.head?, l.Holds down c) : ∀ k ∈ (order l C).head?, down k := by
  intro k hk
  cases C with
  | nil => cases hk
  | cons c C =>
    obtain ⟨key, hkey, hdown⟩ := h c rfl
    rw [order_cons hkey] at hk
    obtain rfl : key = k := by simpa using hk
    exact hdown

theorem Placed.sorted {R : Key → Key → Prop} (htrans : ∀ a b c, R a b → R b c → R a c)
    (h : Placed l l' A x C up down) (hkey : l.rows.key x = some key)
    (hsorted : (order l (A ++ C)).Pairwise R) (hup : ∀ k, up k → R k key)
    (hdown : ∀ k, down k → R key k) :
    ∃ A' C', A' ++ C' = A ++ C ∧ WellFormed l' (A' ++ x :: C') ∧
      (order l' (A' ++ x :: C')).Pairwise R := by
  obtain ⟨hsame, A', C', hrest, hwell, hA', hC'⟩ := h
  refine ⟨A', C', hrest, hwell, ?_⟩
  rw [order_congr hsame.key, order_append, order_cons hkey]
  rw [← hrest, order_append] at hsorted
  exact pairwise_insert htrans hsorted (fun k hk => hup k (getLast?_order hA' k hk))
    (fun k hk => hdown k (head?_order hC' k hk))

theorem WellFormed.key_injective {y : RowId} (h : WellFormed l ids) (hx : x ∈ ids) (hy : y ∈ ids)
    (hkx : l.rows.key x = some key) (hky : l.rows.key y = some key) : x = y := by
  obtain ⟨k, hk, hrow⟩ := h.keys x hx
  obtain ⟨k', hk', hrow'⟩ := h.keys y hy
  obtain rfl : key = k := by
    rw [hkx] at hk
    exact Option.some.inj hk
  obtain rfl : key = k' := by
    rw [hky] at hk'
    exact Option.some.inj hk'
  rw [hrow] at hrow'
  exact Option.some.inj hrow'

/-! ## By date -/

/-- The rows go from the newest to the oldest. -/
def SortedByDate (e : Entries Key) (l : DialogsList Key) (ids : List RowId) : Prop :=
  (order l ids).Pairwise fun a b => e.sortKeyInChatList b ≤ e.sortKeyInChatList a

theorem adjustByPos_sorted {e' : Entries Key} (h : WellFormed l (A ++ x :: C))
    (hmode : l.sortMode = .date) (hsorted : SortedByDate e l (A ++ x :: C))
    (hkey : l.rows.key x = some key)
    (hother : ∀ k, k ≠ key → e'.sortKeyInChatList k = e.sortKeyInChatList k) :
    ∃ l' A' C', l.adjustByPos e' x = some l' ∧ A' ++ C' = A ++ C ∧
      WellFormed l' (A' ++ x :: C') ∧ SortedByDate e' l' (A' ++ x :: C') := by
  obtain ⟨l', hrun, hplaced⟩ := adjustByPos_placed (e := e') h hmode hkey
  have hrest : (order l (A ++ C)).Pairwise fun a b =>
      e'.sortKeyInChatList b ≤ e'.sortKeyInChatList a := by
    have hsub : (order l (A ++ C)).Pairwise fun a b =>
        e.sortKeyInChatList b ≤ e.sortKeyInChatList a := by
      refine List.Pairwise.sublist ?_ hsorted
      exact List.Sublist.filterMap _ (by simp)
    refine hsub.imp_of_mem ?_
    intro a b ha hb hab
    have hne (k : Key) (hk : k ∈ order l (A ++ C)) : k ≠ key := by
      rintro rfl
      obtain ⟨y, hy, hky⟩ := List.mem_filterMap.mp hk
      have hymem : y ∈ A ++ x :: C := by
        simp only [List.mem_append, List.mem_cons] at hy ⊢
        tauto
      obtain rfl := h.key_injective (by simp) hymem hkey hky
      have hnodup : (A ++ x :: C).Nodup := (List.nodup_append.mp h.nodup).1
      exact (List.nodup_cons.mp (List.nodup_middle.mp hnodup)).1 hy
    rw [hother a (hne a ha), hother b (hne b hb)]
    exact hab
  obtain ⟨A', C', hAC, hwell, hsorted'⟩ := hplaced.sorted
    (R := fun a b => e'.sortKeyInChatList b ≤ e'.sortKeyInChatList a)
    (fun a b c hab hbc => UInt64.le_trans hbc hab) hkey hrest (fun _ h => h) (fun _ h => h)
  exact ⟨l', A', C', hrun, hAC, hwell, hsorted'⟩

variable [DecidableEq Key]

theorem addToEnd_sorted (h : WellFormed l ids) (hmode : l.sortMode = .date)
    (hsorted : SortedByDate e l ids) (hkey : l.rowByKey key = none) :
    ∃ l' A C, l.addToEnd e key = some (l.fresh, l') ∧ A ++ C = ids ∧
      WellFormed l' (A ++ l.fresh :: C) ∧ SortedByDate e l' (A ++ l.fresh :: C) ∧
      Added l l' ids key := by
  obtain ⟨l₁, happend, happended, hwell⟩ := appendRow_spec h hkey
  have hkey₁ : l₁.rows.key l.fresh = some key := by
    rw [happended.key, Function.update_self]
  have hmode₁ : l₁.sortMode = .date := by rw [happended.sortMode, hmode]
  obtain ⟨l', hrun, hplaced⟩ := adjustByPos_placed (e := e) hwell hmode₁ hkey₁
  have hrest : (order l₁ (ids ++ [])).Pairwise fun a b =>
      e.sortKeyInChatList b ≤ e.sortKeyInChatList a := by
    have heq : order l₁ (ids ++ []) = order l ids := by
      rw [List.append_nil, order, order]
      apply List.filterMap_congr
      intro y hy
      have hne : y ≠ l.fresh := by
        rintro rfl
        exact h.fresh_notMem (List.mem_append_left _ hy)
      rw [happended.key, Function.update_of_ne hne]
    rw [heq]
    exact hsorted
  obtain ⟨A, C, hAC, hwell', hsorted'⟩ := hplaced.sorted
    (R := fun a b => e.sortKeyInChatList b ≤ e.sortKeyInChatList a)
    (fun a b c hab hbc => UInt64.le_trans hbc hab) hkey₁ hrest (fun _ h => h) (fun _ h => h)
  refine ⟨l', A, C, ?_, by rw [hAC, List.append_nil], hwell', hsorted',
    hplaced.rearranged.added happended⟩
  rw [addToEnd, happend, Option.bind_eq_bind, Option.bind_some]
  simp [hmode₁, hrun]

/-- A list that is sorted by date stays sorted: a new row goes to its place, and a row whose date
changed goes to its new place, with the other rows in the order they had. -/
theorem date_order (h : WellFormed l ids) (hmode : l.sortMode = .date)
    (hsorted : SortedByDate e l ids) :
    (∀ key, l.contains key = false → ∃ l' A C, l.addToEnd e key = some (l.fresh, l') ∧
      A ++ C = ids ∧ WellFormed l' (A ++ l.fresh :: C) ∧
      SortedByDate e l' (A ++ l.fresh :: C)) ∧
    ∀ key x e', l.getRow key = some x →
      (∀ k, k ≠ key → e'.sortKeyInChatList k = e.sortKeyInChatList k) →
      ∃ l' A C, l.adjustByPos e' x = some l' ∧ A ++ C = ids.erase x ∧
        WellFormed l' (A ++ x :: C) ∧ SortedByDate e' l' (A ++ x :: C) := by
  constructor
  · intro key hkey
    have hkey : l.rowByKey key = none := by simpa [contains] using hkey
    obtain ⟨l', A, C, hrun, hAC, hwell, hsorted', -⟩ := addToEnd_sorted h hmode hsorted hkey
    exact ⟨l', A, C, hrun, hAC, hwell, hsorted'⟩
  · intro key x e' hrow hother
    obtain ⟨hx, hkey⟩ := h.rowByKey key x hrow
    obtain ⟨A, C, rfl⟩ := List.append_of_mem hx
    obtain ⟨l', A', C', hrun, hAC, hwell, hsorted'⟩ :=
      adjustByPos_sorted h hmode hsorted hkey hother
    refine ⟨l', A', C', hrun, ?_, hwell, hsorted'⟩
    have hnodup : (A ++ x :: C).Nodup := (List.nodup_append.mp h.nodup).1
    have hxA : x ∉ A := by
      intro hmem
      exact (List.nodup_append.mp hnodup).2.2 x hmem x List.mem_cons_self rfl
    rw [hAC, List.erase_append_right _ hxA, List.erase_cons_head]

theorem date_order_two :
    ∃ l ids, WellFormed (l : DialogsList Nat) ids ∧ ids.length = 2 ∧
      SortedByDate sampleEntries l ids ∧
      (∀ key, l.contains key = false → ∃ l' A C, l.addToEnd sampleEntries key = some (l.fresh, l') ∧
        A ++ C = ids ∧ WellFormed l' (A ++ l.fresh :: C) ∧
        SortedByDate sampleEntries l' (A ++ l.fresh :: C)) ∧
      ∀ key x e', l.getRow key = some x →
        (∀ k, k ≠ key → e'.sortKeyInChatList k = sampleEntries.sortKeyInChatList k) →
        ∃ l' A C, l.adjustByPos e' x = some l' ∧ A ++ C = ids.erase x ∧
          WellFormed l' (A ++ x :: C) ∧ SortedByDate e' l' (A ++ x :: C) := by
  have hinit : WellFormed (init .date : DialogsList Nat) [] := init_wellFormed .date
  have hkey₁ : (init .date : DialogsList Nat).rowByKey 1 = none := rfl
  obtain ⟨l₁, A₁, C₁, -, h₁, hwell₁, hsorted₁, hadded₁⟩ := addToEnd_sorted (e := sampleEntries)
    hinit rfl List.Pairwise.nil hkey₁
  have hkey₂ : l₁.rowByKey 2 = none := by
    rw [hadded₁.rowByKey]
    rfl
  obtain ⟨l, A, C, -, h₂, hwell, hsorted, hadded⟩ := addToEnd_sorted hwell₁
    (hadded₁.sortMode.trans rfl) hsorted₁ hkey₂
  have hlength := congrArg List.length h₂
  have hlength₁ := congrArg List.length h₁
  simp only [List.length_append, List.length_cons, List.length_nil] at hlength hlength₁
  refine ⟨l, _, hwell, ?_, hsorted,
    date_order hwell ((hadded.sortMode.trans hadded₁.sortMode).trans rfl) hsorted⟩
  simp only [List.length_append, List.length_cons]
  omega

/-! ## By name -/

/-- `QString::compare` orders the names. -/
structure NameOrder (compareNames : List UInt16 → List UInt16 → Int) : Prop where
  swap : ∀ a b, 0 ≤ compareNames a b ↔ compareNames b a ≤ 0
  trans : ∀ a b c, compareNames a b ≤ 0 → compareNames b c ≤ 0 → compareNames a c ≤ 0

/-- The rows go from the first name to the last. -/
def SortedByName (e : Entries Key) (l : DialogsList Key) (ids : List RowId) : Prop :=
  (order l ids).Pairwise fun a b => e.compareNames (e.chatListName a) (e.chatListName b) ≤ 0

/-- A change of a list of contacts. A changed name is followed by `adjustByName`. -/
inductive ContactOperation (Key : Type) where
  | addByName (key : Key)
  | del (key : Key)
  | rename (key : Key) (name : List UInt16)

def renamed (e : Entries Key) (key : Key) (name : List UInt16) : Entries Key :=
  { e with chatListName := Function.update e.chatListName key name }

def contactStep (s : Entries Key × DialogsList Key) :
    ContactOperation Key → Option (Entries Key × DialogsList Key)
  | .addByName key => (s.2.addByName s.1 key).map fun r => (s.1, r.2)
  | .del key => (s.2.del key).map fun r => (s.1, r.2)
  | .rename key name =>
    (s.2.adjustByName (renamed s.1 key name) key).map fun r => (renamed s.1 key name, r.2)

def contactRun : List (ContactOperation Key) → Entries Key × DialogsList Key →
    Option (Entries Key × DialogsList Key)
  | [], s => some s
  | op :: ops, s => (contactStep s op).bind (contactRun ops)

/-- A key that is added is not there yet. A row whose name changes is the first one, or stands
behind a row with the same name. -/
def InPlace (s : Entries Key × DialogsList Key) : ContactOperation Key → Prop
  | .addByName key => s.2.contains key = false
  | .del _ => True
  | .rename key name => ∀ row ∈ s.2.getRow key, ∀ prev ∈ (s.2.rows row).bind Row.prev,
      ∀ k ∈ s.2.rows.key prev, s.1.compareNames (s.1.chatListName k) name = 0

def InPlaceRun : List (ContactOperation Key) → Entries Key × DialogsList Key → Prop
  | [], _ => True
  | op :: ops, s => InPlace s op ∧ ∀ s' ∈ contactStep s op, InPlaceRun ops s'

theorem appended_order {l₁ : DialogsList Key} (happended : Appended l l₁ key)
    (h : WellFormed l ids) : order l₁ ids = order l ids := by
  rw [order, order]
  apply List.filterMap_congr
  intro y hy
  have hne : y ≠ l.fresh := by
    rintro rfl
    exact h.fresh_notMem (List.mem_append_left _ hy)
  rw [happended.key, Function.update_of_ne hne]

theorem addByName_sorted (hcompare : NameOrder e.compareNames) (h : WellFormed l ids)
    (hmode : l.sortMode = .name) (hsorted : SortedByName e l ids) (hkey : l.rowByKey key = none) :
    ∃ row l' ids', l.addByName e key = some (row, l') ∧ WellFormed l' ids' ∧
      l'.sortMode = .name ∧ SortedByName e l' ids' := by
  obtain ⟨l₁, happend, happended, hwell⟩ := appendRow_spec h hkey
  have hkey₁ : l₁.rows.key l.fresh = some key := by
    rw [happended.key, Function.update_self]
  have hadd : l.addToEnd e key = some (l.fresh, l₁) := by
    rw [addToEnd, happend, Option.bind_eq_bind, Option.bind_some]
    simp [happended.sortMode, hmode]
  obtain ⟨l', hplace, hplaced⟩ := placeByName_placed (e := e) key (0 < ·) hwell
  have hrest : (order l₁ (ids ++ [])).Pairwise fun a b =>
      e.compareNames (e.chatListName a) (e.chatListName b) ≤ 0 := by
    rw [List.append_nil, appended_order happended h]
    exact hsorted
  have hmode' : l'.sortMode = .name := by
    rw [hplaced.1.sortMode, happended.sortMode, hmode]
  obtain ⟨A, C, -, hwell', hsorted'⟩ := hplaced.sorted
    (R := fun a b => e.compareNames (e.chatListName a) (e.chatListName b) ≤ 0)
    (fun a b c => hcompare.trans _ _ _) hkey₁ hrest
    (by
      rintro k (hk | hk)
      · simpa using hk
      · exact Int.le_of_lt hk)
    (by
      rintro k (hk | hk)
      · have hlt : 0 < e.compareNames (e.chatListName k) (e.chatListName key) := by simpa using hk
        exact (hcompare.swap _ _).mp (Int.le_of_lt hlt)
      · exact (hcompare.swap _ _).mp hk)
  refine ⟨some l.fresh, l', _, ?_, hwell', hmode', hsorted'⟩
  rw [addByName, if_neg (by simp [hmode]), hadd, Option.bind_eq_bind, Option.bind_some]
  dsimp only
  rw [hplace]
  rfl

theorem del_sorted (h : WellFormed l ids) (hmode : l.sortMode = .name)
    (hsorted : SortedByName e l ids) :
    ∃ found l' ids', l.del key = some (found, l') ∧ WellFormed l' ids' ∧ l'.sortMode = .name ∧
      SortedByName e l' ids' := by
  cases hrow : l.rowByKey key with
  | none => exact ⟨false, l, ids, by simp [del, hrow], h, hmode, hsorted⟩
  | some x =>
    obtain ⟨A, C, rfl⟩ := List.append_of_mem (h.rowByKey key x hrow).1
    obtain ⟨l', hrun, hdeleted, hwell⟩ := del_spec h hrow
    refine ⟨true, l', A ++ C, hrun, hwell, hdeleted.sortMode.trans hmode, ?_⟩
    have heq : order l' (A ++ C) = order l (A ++ C) := by
      rw [order, order]
      apply List.filterMap_congr
      intro y hy
      have hne : y ≠ x := by
        rintro rfl
        have hnodup : (A ++ y :: C).Nodup := (List.nodup_append.mp h.nodup).1
        exact (List.nodup_cons.mp (List.nodup_middle.mp hnodup)).1 hy
      rw [hdeleted.key, Function.update_of_ne hne]
    rw [SortedByName, heq]
    exact hsorted.sublist (List.Sublist.filterMap _ (by simp))

theorem sortedByName_renamed {K : List Key} {name : List UInt16} (hK : key ∉ K)
    (h : K.Pairwise fun a b => e.compareNames (e.chatListName a) (e.chatListName b) ≤ 0) :
    K.Pairwise fun a b => (renamed e key name).compareNames
      ((renamed e key name).chatListName a) ((renamed e key name).chatListName b) ≤ 0 := by
  refine h.imp_of_mem ?_
  intro a b ha hb hab
  have hne (k : Key) (hk : k ∈ K) : k ≠ key := by
    rintro rfl
    exact hK hk
  simpa [renamed, hne a ha, hne b hb] using hab

omit [DecidableEq Key] in
theorem WellFormed.key_of_order (h : WellFormed l ids) (hkey : key ∈ order l ids) :
    ∃ x ∈ ids, l.rows.key x = some key ∧ l.rowByKey key = some x := by
  obtain ⟨x, hx, hkx⟩ := List.mem_filterMap.mp hkey
  obtain ⟨k, hk, hrow⟩ := h.keys x hx
  obtain rfl : key = k := by
    rw [hkx] at hk
    exact Option.some.inj hk
  exact ⟨x, hx, hkx, hrow⟩

/-- A name that changes where the row may stay leaves the list sorted. -/
theorem adjustByName_sorted {name : List UInt16} (hcompare : NameOrder e.compareNames)
    (h : WellFormed l ids) (hmode : l.sortMode = .name) (hsorted : SortedByName e l ids)
    (hplace : InPlace (e, l) (.rename key name)) :
    ∃ row l' ids', l.adjustByName (renamed e key name) key = some (row, l') ∧
      WellFormed l' ids' ∧ l'.sortMode = .name ∧ SortedByName (renamed e key name) l' ids' := by
  cases hrow : l.rowByKey key with
  | none =>
    refine ⟨none, l, ids, by simp [adjustByName, hmode, hrow], h, hmode, ?_⟩
    apply sortedByName_renamed _ hsorted
    intro hmem
    obtain ⟨x, -, -, hx⟩ := h.key_of_order hmem
    rw [hrow] at hx
    cases hx
  | some x =>
    obtain ⟨hx, hkey⟩ := h.rowByKey key x hrow
    obtain ⟨A, C, rfl⟩ := List.append_of_mem hx
    have hnodup : (A ++ x :: C).Nodup := (List.nodup_append.mp h.nodup).1
    have hnotMem : key ∉ order l (A ++ C) := by
      intro hmem
      obtain ⟨y, hy, hky⟩ := List.mem_filterMap.mp hmem
      have hymem : y ∈ A ++ x :: C := by
        simp only [List.mem_append, List.mem_cons] at hy ⊢
        tauto
      obtain rfl := h.key_injective hx hymem hkey hky
      exact (List.nodup_cons.mp (List.nodup_middle.mp hnodup)).1 hy
    -- the row before has the same name, so the search back stays
    have hlast : ∀ a ∈ A.getLast?, l.Holds (fun k => (renamed e key name).compareNames
        ((renamed e key name).chatListName k) ((renamed e key name).chatListName key) = 0) a := by
      intro a ha
      have hprev := h.prev_of_mem
      have hamem : a ∈ A := List.mem_of_getLast? ha
      obtain ⟨k, hk⟩ := h.key_of_mem (x := a) (List.mem_append_left _ hamem)
      have hne : k ≠ key := by
        rintro rfl
        apply hnotMem
        exact List.mem_filterMap.mpr ⟨a, List.mem_append_left _ hamem, hk⟩
      have hzero := hplace x hrow a (hprev.trans ha) k hk
      exact ⟨k, hk, by simpa [renamed, hne] using hzero⟩
    obtain ⟨A₁, M, y, rfl, hy, hfind, hM, -⟩ := findBack_split
      (p := fun k => (renamed e key name).compareNames ((renamed e key name).chatListName k)
        ((renamed e key name).chatListName key) < 0) h h.steps_lt.1
    obtain rfl : M = [] := by
      by_contra hne
      obtain ⟨m, hm⟩ : ∃ m, M.getLast? = some m := ⟨_, List.getLast?_eq_getLast_of_ne_nil hne⟩
      obtain ⟨k, hk, hlt⟩ := hM m (List.mem_of_getLast? hm)
      obtain ⟨k', hk', hzero⟩ := hlast m (by rw [List.getLast?_append_of_ne_nil _ hne, hm]; rfl)
      rw [hk] at hk'
      obtain rfl := Option.some.inj hk'
      rw [hzero] at hlt
      simp at hlt
    obtain rfl : x = y := by simpa using hy
    obtain ⟨l', hrun, hplaced⟩ : ∃ l', l.moveRow x x (fun l =>
          l.findForward (fun k => (renamed e key name).compareNames
            ((renamed e key name).chatListName k) ((renamed e key name).chatListName key) < 0)
            l.steps x) = some l' ∧
        Placed l l' (A₁ ++ []) x C
          (fun k => (renamed e key name).compareNames ((renamed e key name).chatListName k)
            ((renamed e key name).chatListName key) ≤ 0)
          (fun k => 0 ≤ (renamed e key name).compareNames ((renamed e key name).chatListName k)
            ((renamed e key name).chatListName key)) := by
      apply placed_of_search h hy
      · simp
      · intro a ha
        exact (hlast a (by rwa [List.append_nil])).imp fun k => Int.le_of_eq
      · intro _
        obtain ⟨B, C₁, z, hC, hz, hfind', hB, hC₁⟩ := findForward_split
          (p := fun k => (renamed e key name).compareNames ((renamed e key name).chatListName k)
            ((renamed e key name).chatListName key) < 0) h h.steps_lt.2
        refine ⟨B, C₁, z, hC, hz, hfind', ?_, ?_⟩
        · intro b hb
          exact (hB b hb).imp fun k hk => Int.le_of_lt (by simpa using hk)
        · intro c hc
          exact (hC₁ c hc).imp fun k hk => by simpa using hk
    have hsub : (order l (A₁ ++ [] ++ C)).Pairwise fun a b =>
        e.compareNames (e.chatListName a) (e.chatListName b) ≤ 0 :=
      hsorted.sublist (List.Sublist.filterMap _ (by simp))
    have hrest := @sortedByName_renamed _ _ _ _ _ name hnotMem hsub
    obtain ⟨A', C', -, hwell', hsorted'⟩ := hplaced.sorted
      (R := fun a b => (renamed e key name).compareNames ((renamed e key name).chatListName a)
        ((renamed e key name).chatListName b) ≤ 0)
      (fun a b c => hcompare.trans _ _ _) hkey hrest (fun _ h => h)
      (fun k hk => (hcompare.swap _ _).mp hk)
    refine ⟨some x, l', _, ?_, hwell', hplaced.1.sortMode.trans hmode, hsorted'⟩
    rw [adjustByName, if_neg (not_not_intro hmode), hrow]
    dsimp only
    rw [placeByName, hfind, Option.bind_eq_bind, Option.bind_some, hrun]
    rfl

theorem contactStep_sorted {op : ContactOperation Key} (hcompare : NameOrder e.compareNames)
    (h : WellFormed l ids) (hmode : l.sortMode = .name) (hsorted : SortedByName e l ids)
    (hplace : InPlace (e, l) op) :
    ∃ e' l' ids', contactStep (e, l) op = some (e', l') ∧ NameOrder e'.compareNames ∧
      WellFormed l' ids' ∧ l'.sortMode = .name ∧ SortedByName e' l' ids' := by
  cases op with
  | addByName key =>
    have hkey : l.rowByKey key = none := by simpa [InPlace, contains] using hplace
    obtain ⟨row, l', ids', hrun, hwell, hmode', hsorted'⟩ :=
      addByName_sorted hcompare h hmode hsorted hkey
    exact ⟨e, l', ids', by simp [contactStep, hrun], hcompare, hwell, hmode', hsorted'⟩
  | del key =>
    obtain ⟨found, l', ids', hrun, hwell, hmode', hsorted'⟩ :
        ∃ found l' ids', l.del key = some (found, l') ∧ _ := del_sorted h hmode hsorted
    exact ⟨e, l', ids', by simp [contactStep, hrun], hcompare, hwell, hmode', hsorted'⟩
  | rename key name =>
    obtain ⟨row, l', ids', hrun, hwell, hmode', hsorted'⟩ :=
      adjustByName_sorted hcompare h hmode hsorted hplace
    exact ⟨renamed e key name, l', ids', by simp [contactStep, hrun], hcompare, hwell, hmode',
      hsorted'⟩

theorem contactRun_sorted_from {ops : List (ContactOperation Key)}
    (hcompare : NameOrder e.compareNames) (h : WellFormed l ids) (hmode : l.sortMode = .name)
    (hsorted : SortedByName e l ids) (hplace : InPlaceRun ops (e, l)) :
    ∃ e' l' ids', contactRun ops (e, l) = some (e', l') ∧ WellFormed l' ids' ∧
      SortedByName e' l' ids' := by
  induction ops generalizing e l ids with
  | nil => exact ⟨e, l, ids, rfl, h, hsorted⟩
  | cons op ops ih =>
    obtain ⟨e₁, l₁, ids₁, hstep, hcompare₁, h₁, hmode₁, hsorted₁⟩ :=
      contactStep_sorted hcompare h hmode hsorted hplace.1
    obtain ⟨e', l', ids', hrun, hwell, hsorted'⟩ :=
      ih hcompare₁ h₁ hmode₁ hsorted₁ (hplace.2 _ hstep)
    exact ⟨e', l', ids', by rw [contactRun, hstep]; exact hrun, hwell, hsorted'⟩

/-- The contacts stay sorted as long as every changed name leaves its row where it is, or lets it
move towards the end only. -/
theorem contactRun_sorted {ops : List (ContactOperation Key)}
    (hcompare : NameOrder e.compareNames) (hplace : InPlaceRun ops (e, init .name)) :
    ∃ e' l ids, contactRun ops (e, init .name) = some (e', l) ∧ WellFormed l ids ∧
      SortedByName e' l ids :=
  contactRun_sorted_from hcompare (init_wellFormed .name) rfl List.Pairwise.nil hplace

omit [DecidableEq Key] in
theorem WellFormed.sorted_of_pos {a b : Key} {x y : RowId} {i j : Int} (h : WellFormed l ids)
    (hsorted : SortedByName e l ids) (ha : l.rowByKey a = some x) (hb : l.rowByKey b = some y)
    (hi : l.rows.pos x = some i) (hj : l.rows.pos y = some j) (hij : i < j) :
    e.compareNames (e.chatListName a) (e.chatListName b) ≤ 0 := by
  obtain ⟨hx, hkx⟩ := h.rowByKey a x ha
  obtain ⟨hy, hky⟩ := h.rowByKey b y hb
  obtain ⟨A, C, rfl⟩ := List.append_of_mem hx
  have hmem : y ∈ C := by
    have hposx := h.numbered.getElem? (i := A.length) (x := x) (by simp)
    obtain ⟨n, hn⟩ := List.mem_iff_getElem?.mp (List.mem_append_left [l.end_] hy)
    have hposy := h.numbered.getElem? hn
    rw [hi] at hposx
    rw [hj] at hposy
    have hlt : A.length < n := by
      have hi := Option.some.inj hposx
      have hj := Option.some.inj hposy
      omega
    obtain ⟨m, rfl⟩ := Nat.exists_eq_add_of_lt hlt
    have hne : y ≠ l.end_ := by
      rintro rfl
      exact h.end_notMem hy
    rw [List.append_assoc, List.getElem?_append_right (Nat.le_of_lt hlt),
      show A.length + m + 1 - A.length = m + 1 by omega, List.cons_append,
      List.getElem?_cons_succ] at hn
    simpa [hne] using List.mem_of_getElem? hn
  rw [SortedByName, order_append, order_cons hkx, List.pairwise_append,
    List.pairwise_cons] at hsorted
  exact hsorted.2.1.1 b (List.mem_filterMap.mpr ⟨y, hmem, hky⟩)

instance (s : Entries Key × DialogsList Key) (op : ContactOperation Key) :
    Decidable (InPlace s op) :=
  match op with
  | .addByName key => inferInstanceAs (Decidable (s.2.contains key = false))
  | .del _ => inferInstanceAs (Decidable True)
  | .rename key name => inferInstanceAs (Decidable (∀ row ∈ s.2.getRow key,
      ∀ prev ∈ (s.2.rows row).bind Row.prev, ∀ k ∈ s.2.rows.key prev,
        s.1.compareNames (s.1.chatListName k) name = 0))

instance decidableInPlaceRun : (ops : List (ContactOperation Key)) →
    (s : Entries Key × DialogsList Key) → Decidable (InPlaceRun ops s)
  | [], _ => inferInstanceAs (Decidable True)
  | op :: ops, s =>
    have : ∀ s', Decidable (InPlaceRun ops s') := decidableInPlaceRun ops
    inferInstanceAs (Decidable (InPlace s op ∧ ∀ s' ∈ contactStep s op, InPlaceRun ops s'))

/-- Names of latin letters, ordered by their lower case letters. -/
def compareLatin (a b : List UInt16) : Int :=
  match compare (a.map toLower) (b.map toLower) with
  | .lt => -1
  | .eq => 0
  | .gt => 1
where
  toLower (ch : UInt16) : Nat := if 65 ≤ ch ∧ ch ≤ 90 then ch.toNat + 32 else ch.toNat

theorem compareLatin_nonpos (a b : List UInt16) :
    compareLatin a b ≤ 0 ↔ (compare (a.map compareLatin.toLower)
      (b.map compareLatin.toLower)).isLE = true := by
  rw [compareLatin]
  cases compare (a.map compareLatin.toLower) (b.map compareLatin.toLower) <;> simp

theorem compareLatin_order : NameOrder compareLatin where
  swap a b := by
    have hswap : compare (b.map compareLatin.toLower) (a.map compareLatin.toLower) =
        (compare (a.map compareLatin.toLower) (b.map compareLatin.toLower)).swap :=
      Std.OrientedCmp.eq_swap
    rw [compareLatin, compareLatin, hswap]
    cases compare (a.map compareLatin.toLower) (b.map compareLatin.toLower) <;> simp
  trans a b c := by
    rw [compareLatin_nonpos, compareLatin_nonpos, compareLatin_nonpos]
    exact Std.TransCmp.isLE_trans

/-- The contacts 1 to 3 are named by the letters a to c. -/
def latinEntries : Entries Nat where
  chatListName key := [96 + .ofNat key]
  sortKeyInChatList _ := 0
  compareNames := compareLatin

theorem contactRun_sorted_renamed :
    ∃ e' l ids, contactRun [.addByName 2, .addByName 1, .addByName 3, .rename 2 [65], .del 3,
        .rename 1 [67]] (latinEntries, init .name) = some (e', l) ∧ WellFormed l ids ∧
      SortedByName e' l ids :=
  contactRun_sorted compareLatin_order (by decide)

/-- The second of two contacts gets a later name and is put first. -/
theorem contactRun_unsorted :
    ∃ e' l ids, contactRun [.addByName 1, .addByName 2, .rename 2 [99]]
        (latinEntries, init .name) = some (e', l) ∧ WellFormed l ids ∧
      ¬ SortedByName e' l ids := by
  have hallowed : AllowedRun [.addByName latinEntries 1, .addByName latinEntries 2,
      .adjustByName (renamed latinEntries 2 [99]) 2] (init .name) := by
    decide
  obtain ⟨l, ids, hrun, hwell, -⟩ := run_wellFormed .name hallowed
  refine ⟨renamed latinEntries 2 [99], l, ids, ?_, hwell, ?_⟩
  · simp only [run, step, Option.bind_eq_some_iff, Option.map_eq_some_iff] at hrun
    obtain ⟨_, ⟨r₁, h₁, rfl⟩, _, ⟨r₂, h₂, rfl⟩, _, ⟨r₃, h₃, rfl⟩, hl⟩ := hrun
    simpa [contactRun, contactStep, h₁, h₂, h₃] using hl
  · intro hsorted
    have hall : ∀ l ∈ run [.addByName latinEntries 1, .addByName latinEntries 2,
        .adjustByName (renamed latinEntries 2 [99]) 2] (init .name),
        l.rowByKey 2 = some 2 ∧ l.rowByKey 1 = some 1 ∧ l.rows.pos 2 = some 0 ∧
          l.rows.pos 1 = some 1 := by
      decide
    obtain ⟨h₂, h₁, hpos₂, hpos₁⟩ := hall l hrun
    have hle := hwell.sorted_of_pos hsorted h₂ h₁ hpos₂ hpos₁ (by decide)
    revert hle
    decide

end DialogsList

end TelegramClient.Dialogs
